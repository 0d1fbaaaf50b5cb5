import Passdoq.Vault.KeyWrap
import Passdoq.Vault.World

/-!
# The entry store

The entries of an unlocked vault as a partial map from ids to records, over runs of entry operations and of cycles of
`save`, `lock` and `unlock` that succeed.

* `Store` : the partial map, with what each operation does to it; `Store.Refines` : the entries hold exactly its records;
* `Book` : a vault beside its store; `draws`, `clocks` : the ids and times that the calls of a run get;
* `entry_store` : along every run the entries refine the store, and the operations answer from it.
-/

namespace Passdoq
open Msgpack Crypto Vault

variable {S : Sodium} {F : Format} {e : Env} {p p' : Proc} {op : Op} {passphrase : Bytes}

/-! ## Records -/

/-- A clock reading, and whether a reload has cut it down to seconds since. -/
structure Stamp where
  time : TimePoint
  cut : Bool

def Stamp.shown (s : Stamp) : TimePoint := if s.cut then s.time.truncate else s.time

/-- What the store knows of an entry: the contents of the last add or update, and the times of its add and of that. -/
structure Record where
  name : Bytes
  username : Bytes
  secret : Bytes
  metadata : OrdMap Bytes Bytes
  tags : List Bytes
  created : Stamp
  modified : Stamp

namespace Record

/-- The contents of an entry that a caller passes, with the times of the store. -/
def of (entry : Entry) (created modified : Stamp) : Record :=
  ⟨entry.name, entry.username, entry.secret, entry.metadata, entry.tags, created, modified⟩

/-- The entry that shows the record. -/
def entry (r : Record) (id : Bytes) : Entry :=
  ⟨id, r.name, r.username, r.secret, r.metadata, r.tags, r.created.shown, r.modified.shown⟩

def reload (r : Record) : Record := { r with created := ⟨r.created.time, true⟩, modified := ⟨r.modified.time, true⟩ }

theorem entry_reload (r : Record) (id : Bytes) : r.reload.entry id = (r.entry id).truncate := by
  have hshown : ∀ s : Stamp, (Stamp.mk s.time true).shown = s.shown.truncate := by
    intro s
    change s.time.truncate = s.shown.truncate
    unfold Stamp.shown
    split_ifs
    · exact (TimePoint.truncate_truncate _).symm
    · rfl
  simp only [reload, entry, Entry.truncate, hshown]

end Record

/-! ## The store -/

/-- Records by id. -/
abbrev Store := Bytes → Option Record

namespace Store

/-- The store of a vault that is looked at for the first time. -/
def of (es : OrdMap Bytes Entry) : Store := fun id =>
  (es.find? id).map fun entry => .of entry ⟨entry.created, false⟩ ⟨entry.modified, false⟩

/-- What an operation does to the store. -/
def next (m : Store) (e : Env) : Op → Store
  | .addEntry entry => Function.update m (generateId e.id) (some (.of entry ⟨e.now, false⟩ ⟨e.now, false⟩))
  | .updateEntry id entry => match m id with
    | none => m
    | some r => Function.update m id (some (.of entry r.created ⟨e.now, false⟩))
  | .deleteEntry id => Function.update m id none
  | _ => m

def reload (m : Store) : Store := fun id => (m id).map Record.reload

/-- The list has every entry of the store once, in strictly increasing order of ids. -/
def Lists (m : Store) (l : List Entry) : Prop :=
  l.Pairwise (fun a b => a.id < b.id) ∧ ∀ entry, entry ∈ l ↔ ∃ r, m entry.id = some r ∧ entry = r.entry entry.id

/-- The entries are those of the store, each under its id. -/
def Refines (m : Store) (es : OrdMap Bytes Entry) : Prop := ∀ id, es.find? id = (m id).map fun r => r.entry id

variable {m : Store} {es : OrdMap Bytes Entry}

theorem refines_of (h : Keyed es) : Refines (.of es) es := by
  intro id
  rw [of, Option.map_map]
  cases hf : es.find? id with
  | none => rfl
  | some entry =>
    have hid : entry.id = id := h id entry hf
    subst hid
    rfl

theorem Refines.keyed (h : m.Refines es) : Keyed es := by
  intro id entry hf
  rw [h id, Option.map_eq_some_iff] at hf
  obtain ⟨r, -, rfl⟩ := hf
  rfl

theorem Refines.insert (h : m.Refines es) (id : Bytes) (r : Record) :
    Refines (Function.update m id (some r)) (es.insert id (r.entry id)) := by
  intro id'
  rw [OrdMap.find?_insert]
  by_cases hid : id = id'
  · subst hid
    rw [if_pos rfl, Function.update_self]
    rfl
  · rw [if_neg hid, Function.update_of_ne (Ne.symm hid), h id']

theorem Refines.erase (h : m.Refines es) (id : Bytes) : Refines (Function.update m id none) (es.erase id) := by
  intro id'
  rw [OrdMap.find?_erase]
  by_cases hid : id = id'
  · subst hid
    rw [if_pos rfl, Function.update_self]
    rfl
  · rw [if_neg hid, Function.update_of_ne (Ne.symm hid), h id']

theorem Refines.next (h : m.Refines es) (e : Env) (op : Op) : (m.next e op).Refines (op.outcome e es).2 := by
  cases op with
  | addEntry entry => exact h.insert (generateId e.id) (.of entry ⟨e.now, false⟩ ⟨e.now, false⟩)
  | updateEntry id entry =>
    have hid := h id
    cases hm : m id with
    | none =>
      rw [hm, Option.map_none] at hid
      simpa only [Op.outcome, hid, Store.next, hm] using h
    | some r =>
      rw [hm, Option.map_some] at hid
      simp only [Op.outcome, hid, Store.next, hm]
      exact h.insert id (.of entry r.created ⟨e.now, false⟩)
  | deleteEntry id => exact h.erase id
  | getEntry id =>
    have hsame : ((Op.getEntry id).outcome e es).2 = es := by cases hf : es.find? id <;> simp only [Op.outcome, hf]
    rw [hsame]
    exact h
  | _ => exact h

theorem Refines.reload (h : m.Refines es) : m.reload.Refines (reloaded es) := by
  intro id
  rw [reloaded, OrdMap.find?_mapVal, h id, Store.reload, Option.map_map, Option.map_map]
  congr 1
  exact funext fun r => (r.entry_reload id).symm

theorem Refines.lists (h : m.Refines es) : m.Lists (es.toList.map Prod.snd) := by
  have hkey : ∀ q ∈ es.toList, q.2.id = q.1 := fun q hq => h.keyed q.1 q.2 ((es.mem_iff_find? q.1 q.2).mp hq)
  constructor
  · rw [List.pairwise_map]
    refine es.sorted.imp_of_mem fun {a b} ha hb hlt => ?_
    rw [hkey a ha, hkey b hb]
    exact hlt
  · intro entry
    rw [List.mem_map]
    constructor
    · rintro ⟨⟨id, entry⟩, hmem, rfl⟩
      obtain rfl : entry.id = id := hkey _ hmem
      have hf := (es.mem_iff_find? entry.id entry).mp hmem
      rw [h entry.id, Option.map_eq_some_iff] at hf
      obtain ⟨r, hr, hentry⟩ := hf
      exact ⟨r, hr, hentry.symm⟩
    · rintro ⟨r, hr, hentry⟩
      refine ⟨(entry.id, entry), (es.mem_iff_find? _ _).mpr ?_, rfl⟩
      rw [h entry.id, hr, Option.map_some, ← hentry]

end Store

/-! ## Ids -/

theorem hexDigit_inj {m n : Nat} (hm : m < 16) (hn : n < 16) (h : hexDigit m = hexDigit n) : m = n := by
  have hnat : (hexDigit m).toNat = (hexDigit n).toNat := congrArg _ h
  unfold hexDigit at hnat
  split_ifs at hnat <;> simp only [UInt8.toNat_ofNat'] at hnat <;> omega

theorem generateId_injective : Function.Injective generateId := by
  have key : ∀ l l' : Bytes, (l.flatMap fun b => [hexDigit (b.toNat / 16), hexDigit (b.toNat % 16)]) =
      (l'.flatMap fun b => [hexDigit (b.toNat / 16), hexDigit (b.toNat % 16)]) → l = l' := by
    intro l
    induction l with
    | nil =>
      intro l' h
      cases l' with
      | nil => rfl
      | cons b l' => cases h
    | cons b l ih =>
      intro l' h
      cases l' with
      | nil => cases h
      | cons c l' =>
        simp only [List.flatMap_cons, List.cons_append, List.nil_append, List.cons.injEq] at h
        obtain ⟨hhigh, hlow, htail⟩ := h
        have hb := b.toNat_lt
        have hc := c.toNat_lt
        have h₁ := hexDigit_inj (by omega) (by omega) hhigh
        have h₂ := hexDigit_inj (by omega) (by omega) hlow
        have hbc : b = c := UInt8.toNat_inj.mp (by omega)
        rw [hbc, ih l' htail]
  exact fun b c h => Subtype.ext (key b.1 c.1 h)

/-! ## Runs -/

/-- How a saved vault comes back: locked and unlocked, or opened and unlocked by a fresh object. -/
inductive Back
  | relock (e : Env)
  | reopen (e₁ e₂ : Env)

def Back.run (S : Sodium) (F : Format) (passphrase : Bytes) (p : Proc) : Back → Except Fault Bool × Proc
  | .relock e => Passdoq.relock S F e passphrase p
  | .reopen e₁ e₂ => Passdoq.reopen S F e₁ e₂ passphrase p

/-- An operation on the entries, or a save and a reload. -/
inductive StoreEvent
  | call (e : Env) (op : Op)
  | cycle (e : Env) (passphrase : Bytes) (back : Back)

/-- A vault beside the store that it refines. -/
structure Book where
  proc : Proc
  store : Store

namespace Book

def start (p : Proc) : Book := ⟨p, .of p.vault.entries⟩

/-- The book after an event. A cycle is one in which `save` returns true and writes all of its bytes, and the `unlock` at
its end returns true. -/
def step (S : Sodium) (F : Format) (b : Book) : StoreEvent → Option Book
  | .call e op => if op.onEntries then some ⟨(exec S F e op b.proc).2, b.store.next e op⟩ else none
  | .cycle e passphrase back => match save S F e b.proc with
    | (.ok true, p) => match e.write, back.run S F passphrase p with
      | .full _, (.ok true, p') => some ⟨p', b.store.reload⟩
      | _, _ => none
    | _ => none

/-- The event leaves the data key: an `unlock` that returns true has opened the entries, and secretbox opens nothing under
another key than the one it was encrypted with. -/
def SameKey (S : Sodium) (F : Format) (b : Book) (ev : StoreEvent) : Prop :=
  ∀ b' ∈ b.step S F ev, b'.proc.vault.dataKey = b.proc.vault.dataKey

instance decidableSameKey (b : Book) (ev : StoreEvent) : Decidable (b.SameKey S F ev) :=
  inferInstanceAs (Decidable (∀ b' ∈ b.step S F ev, b'.proc.vault.dataKey = b.proc.vault.dataKey))

variable {b b' : Book}

theorem step_call : b.step S F (.call e op) = some b' ↔
    op.onEntries ∧ b' = ⟨(exec S F e op b.proc).2, b.store.next e op⟩ := by
  unfold step
  dsimp only
  split_ifs with h
  · simp [h, eq_comm]
  · simp [h]

theorem step_cycle {back : Back} (h : b.step S F (.cycle e passphrase back) = some b') :
    ∃ p p', save S F e b.proc = (.ok true, p) ∧ (∃ good, e.write = .full good) ∧
      back.run S F passphrase p = (.ok true, p') ∧ b' = ⟨p', b.store.reload⟩ := by
  unfold step at h
  dsimp only at h
  split at h
  · next p hsave =>
    split at h
    · next good p' hw hback => exact ⟨p, p', hsave, ⟨good, hw⟩, hback, (Option.some.inj h).symm⟩
    · cases h
  · cases h

/-- The vault is unlocked and its entries are those of the store. -/
structure Inv (b : Book) : Prop where
  unlocked : b.proc.vault.state = .unlocked
  refines : b.store.Refines b.proc.vault.entries

theorem call_inv (h : b.Inv) (hop : op.onEntries) : Book.Inv ⟨(exec S F e op b.proc).2, b.store.next e op⟩ := by
  rw [exec_onEntries hop h.unlocked]
  exact ⟨h.unlocked, h.refines.next e op⟩

end Book

theorem saves_of_true (hs : p.vault.state = .unlocked) (h : save S F e p = (.ok true, p'))
    (hw : ∃ good, e.write = .full good) : Saves S F e p p' := by
  obtain ⟨good, hw⟩ := hw
  refine ⟨h, ?_⟩
  rw [save_unlocked hs] at h
  rcases Except.ok_or_error (fileBytes S F e.nonce p.vault) with ⟨b, hb⟩ | ⟨f, hb⟩
  · rw [hb, hw] at h
    obtain ⟨-, rfl⟩ := Prod.mk.inj h
    exact ⟨b, hb, Function.update_self _ _ _⟩
  · rw [hb] at h
    cases f <;> cases h

/-- A `load` that returns true over a saved file, under the data key of the save, reads the entries of the save. -/
theorem load_reads (hS : S.Correct) (hF : F.Lawful) {nonce : Nonce} {v : Vault} {b : Bytes} (hk : Keyed v.entries)
    (hb : fileBytes S F nonce v = .ok b) (hfs : p.fs p.vault.path = some b) (hs : p.vault.state = .unlocked)
    (hl : load S F e p = (.ok true, p')) (hkey : p.vault.dataKey = v.dataKey) :
    p' = p.assign v.header (reloaded v.entries) := by
  rcases load_cases S F e p with ⟨data, h, es, hdata, -, hdec, hload⟩ | ⟨-, r, h, es, hload, hr, -⟩
  · obtain rfl : b = data := Option.some.inj (hfs.symm.trans hdata)
    have hsaved := decodeFile_fileBytes (w := p.vault) hS hF hk hb e hs hkey
    rw [hdec, Except.ok.injEq, Prod.mk.injEq] at hsaved
    rw [hload, hsaved.1, hsaved.2] at hl
    exact (Prod.mk.inj hl).2.symm
  · rw [hload] at hl
    rcases hr with rfl | rfl <;> cases hl

/-- An `unlock` that returns true over a saved file, under the data key of the save, reads the entries of the save. -/
theorem unlock_reads (hS : S.Correct) (hF : F.Lawful) {nonce : Nonce} {v : Vault} {b : Bytes} (hk : Keyed v.entries)
    (hb : fileBytes S F nonce v = .ok b) (hfs : p.fs p.vault.path = some b)
    (hu : unlock S F e passphrase p = (.ok true, p')) (hkey : p'.vault.dataKey = v.dataKey) :
    p'.vault.state = .unlocked ∧ p'.vault.entries = reloaded v.entries := by
  rcases unlock_cases S F e p passphrase with
    ⟨-, hx⟩ | ⟨-, f, -, hx⟩ | ⟨-, d, -, ⟨x, -, hx⟩ | ⟨p', hx⟩ | ⟨b', dk, -, -, hx⟩⟩ <;> rw [hx] at hu
  · cases hu
  · cases hu
  · cases hu
  · cases hu
  · have hdk : (p.withKeys d.key dk).vault.dataKey = v.dataKey := by
      rw [← hkey, ← load_dataKey (p.withKeys d.key dk), hu]
    have hfile : (p.withKeys d.key dk).fs (p.withKeys d.key dk).vault.path = some b := hfs
    rw [load_reads hS hF hk hb hfile rfl hu hdk]
    exact ⟨rfl, rfl⟩

theorem open_true {path : Bytes} {fs : FS} (h : «open» S F e path ⟨.fresh, fs⟩ = (.ok true, p)) :
    p.fs = fs ∧ p.vault.path = path := by
  rcases open_cases S F e ⟨.fresh, fs⟩ path with ⟨hn, -⟩ | ⟨-, p', hl, ho⟩ | ⟨-, r, p', -, hr, ho⟩
  · exact absurd rfl hn
  · have hfs := load_fs (S := S) (F := F) (e := e) (Proc.withPath ⟨.fresh, fs⟩ path)
    have hpath := load_path (S := S) (F := F) (e := e) (Proc.withPath ⟨.fresh, fs⟩ path)
    rw [hl] at hfs hpath
    rw [ho] at h
    obtain ⟨-, rfl⟩ := Prod.mk.inj h
    exact ⟨hfs, hpath⟩
  · rw [ho] at h
    exact absurd (Prod.mk.inj h).1 hr

/-- A way back that returns true ends with an `unlock` that does, over the same files and path. -/
theorem Back.unlocks {back : Back} (hs : p.vault.state = .unlocked) (h : back.run S F passphrase p = (.ok true, p')) :
    ∃ e p₁, unlock S F e passphrase p₁ = (.ok true, p') ∧ p₁.fs = p.fs ∧ p₁.vault.path = p.vault.path := by
  cases back with
  | relock e => exact ⟨e, locked p, (relock_eq hs).symm.trans h, rfl, rfl⟩
  | reopen e₁ e₂ =>
    have hrun : Passdoq.reopen S F e₁ e₂ passphrase p = (.ok true, p') := h
    rcases ho : «open» S F e₁ p.vault.path ⟨.fresh, p.fs⟩ with ⟨f | (_ | _), p₁⟩
    · rw [Passdoq.reopen, Eff.bind_apply, ho] at hrun
      cases hrun
    · rw [Passdoq.reopen, Eff.bind_apply, ho] at hrun
      cases hrun
    · rw [reopen_eq ho] at hrun
      obtain ⟨hfs, hpath⟩ := open_true ho
      exact ⟨e₂, p₁, hrun, hfs, hpath⟩

namespace Book

variable {b b' : Book} {ev : StoreEvent}

theorem cycle_inv (hS : S.Correct) (hF : F.Lawful) {back : Back} (h : b.Inv)
    (hkey : b.SameKey S F (.cycle e passphrase back)) (hstep : b.step S F (.cycle e passphrase back) = some b') :
    b'.store = b.store.reload ∧ b'.Inv := by
  have hdk := hkey b' hstep
  obtain ⟨p, p', hsave, hfull, hback, rfl⟩ := step_cycle hstep
  have hsaves := saves_of_true h.unlocked hsave hfull
  have hvault := save_vault_eq hsaves
  obtain ⟨-, bytes, hbytes, hfile⟩ := hsaves
  have hunlocked : p.vault.state = .unlocked := by rw [hvault, h.unlocked]
  obtain ⟨e', p₁, hunlock, hfs, hpath⟩ := Back.unlocks hunlocked hback
  obtain ⟨hstate, hentries⟩ := unlock_reads hS hF h.refines.keyed hbytes (by rw [hfs, hpath, hfile]) hunlock hdk
  refine ⟨rfl, hstate, ?_⟩
  rw [hentries]
  exact h.refines.reload

theorem step_inv (hS : S.Correct) (hF : F.Lawful) (h : b.Inv) (hkey : b.SameKey S F ev)
    (hstep : b.step S F ev = some b') : b'.Inv := by
  cases ev with
  | call e op =>
    obtain ⟨hop, rfl⟩ := step_call.mp hstep
    exact call_inv h hop
  | cycle e passphrase back => exact (cycle_inv hS hF h hkey hstep).2

end Book

/-! ## Draws and clocks along a run -/

def StoreEvent.draw : StoreEvent → Option (Block 16)
  | .call e (.addEntry _) => some e.id
  | _ => none

def StoreEvent.clock : StoreEvent → Option TimePoint
  | .call e (.addEntry _) => some e.now
  | .call e (.updateEntry _ _) => some e.now
  | _ => none

def draws (evs : List StoreEvent) : List (Block 16) := evs.filterMap StoreEvent.draw

def clocks (evs : List StoreEvent) : List TimePoint := evs.filterMap StoreEvent.clock

theorem draws_snoc (evs : List StoreEvent) (ev : StoreEvent) : draws (evs ++ [ev]) = draws evs ++ ev.draw.toList := by
  rw [draws, List.filterMap_append]
  congr 1

theorem clocks_snoc (evs : List StoreEvent) (ev : StoreEvent) : clocks (evs ++ [ev]) = clocks evs ++ ev.clock.toList := by
  rw [clocks, List.filterMap_append]
  congr 1

namespace Store

variable {m₀ m : Store} {evs : List StoreEvent} {ev : StoreEvent}

/-- What an event does to the store. -/
def after (m : Store) : StoreEvent → Store
  | .call e op => m.next e op
  | .cycle _ _ _ => m.reload

/-- Every id in the store was there at the start or was drawn. -/
def Drawn (m₀ m : Store) (evs : List StoreEvent) : Prop :=
  ∀ id r, m id = some r → m₀ id ≠ none ∨ ∃ d ∈ draws evs, id = generateId d

/-- The times of every record that was not there at the start were read from the clock, and in this order. -/
def Timed (m₀ m : Store) (evs : List StoreEvent) : Prop :=
  ∀ id r, m₀ id = none → m id = some r → r.created.time ∈ clocks evs ∧ r.created.time.ns ≤ r.modified.time.ns ∧
    (r.modified.cut = true → r.created.cut = true)

/-- A record after an event was there before, up to its cuts, or is new or updated by this call. -/
theorem after_cases {id : Bytes} {r : Record} (h : m.after ev id = some r) :
    m id = some r ∨ (∃ r₀, m id = some r₀ ∧ r = r₀.reload) ∨
    (∃ e entry, ev = .call e (.addEntry entry) ∧ id = generateId e.id ∧ r = .of entry ⟨e.now, false⟩ ⟨e.now, false⟩) ∨
    ∃ e entry r₀, ev = .call e (.updateEntry id entry) ∧ m id = some r₀ ∧ r = .of entry r₀.created ⟨e.now, false⟩ := by
  cases ev with
  | cycle e passphrase back =>
    obtain ⟨r₀, hr₀, hr⟩ := Option.map_eq_some_iff.mp h
    exact .inr (.inl ⟨r₀, hr₀, hr.symm⟩)
  | call e op =>
    cases op with
    | addEntry entry =>
      change Function.update m (generateId e.id) _ id = some r at h
      by_cases hid : id = generateId e.id
      · subst hid
        rw [Function.update_self] at h
        exact .inr (.inr (.inl ⟨e, entry, rfl, rfl, (Option.some.inj h).symm⟩))
      · rw [Function.update_of_ne hid] at h
        exact .inl h
    | updateEntry id' entry =>
      cases hm : m id' with
      | none =>
        simp only [after, next, hm] at h
        exact .inl h
      | some r₀ =>
        simp only [after, next, hm] at h
        by_cases hid : id = id'
        · subst hid
          rw [Function.update_self] at h
          exact .inr (.inr (.inr ⟨e, entry, r₀, rfl, hm, (Option.some.inj h).symm⟩))
        · rw [Function.update_of_ne hid] at h
          exact .inl h
    | deleteEntry id' =>
      change Function.update m id' none id = some r at h
      by_cases hid : id = id'
      · subst hid
        rw [Function.update_self] at h
        cases h
      · rw [Function.update_of_ne hid] at h
        exact .inl h
    | _ => exact .inl h

theorem Drawn.after (h : Drawn m₀ m evs) : Drawn m₀ (m.after ev) (evs ++ [ev]) := by
  have hold : ∀ id r, m id = some r → m₀ id ≠ none ∨ ∃ d ∈ draws (evs ++ [ev]), id = generateId d := by
    intro id r hr
    rcases h id r hr with hid | ⟨d, hd, hid⟩
    · exact .inl hid
    · rw [draws_snoc]
      exact .inr ⟨d, List.mem_append_left _ hd, hid⟩
  intro id r hr
  rcases after_cases hr with hr | ⟨r₀, hr₀, -⟩ | ⟨e, entry, rfl, hid, -⟩ | ⟨e, entry, r₀, -, hr₀, -⟩
  · exact hold id r hr
  · exact hold id r₀ hr₀
  · refine .inr ⟨e.id, ?_, hid⟩
    rw [draws_snoc]
    exact List.mem_append_right _ (by simp [StoreEvent.draw])
  · exact hold id r₀ hr₀

theorem Timed.after (h : Timed m₀ m evs) (hc : (clocks (evs ++ [ev])).Pairwise fun t u => t.ns ≤ u.ns) :
    Timed m₀ (m.after ev) (evs ++ [ev]) := by
  rw [clocks_snoc] at hc
  have hlast := (List.pairwise_append.mp hc).2.2
  intro id r hid hr
  rw [clocks_snoc]
  rcases after_cases hr with hr | ⟨r₀, hr₀, rfl⟩ | ⟨e, entry, rfl, -, rfl⟩ | ⟨e, entry, r₀, rfl, hr₀, rfl⟩
  · obtain ⟨hcreated, hle, hcut⟩ := h id r hid hr
    exact ⟨List.mem_append_left _ hcreated, hle, hcut⟩
  · obtain ⟨hcreated, hle, -⟩ := h id r₀ hid hr₀
    exact ⟨List.mem_append_left _ hcreated, hle, fun _ => rfl⟩
  · have hmem : e.now ∈ clocks evs ++ (StoreEvent.call e (.addEntry entry)).clock.toList := by simp [StoreEvent.clock]
    exact ⟨hmem, le_refl _, fun hcut => by cases hcut⟩
  · obtain ⟨hcreated, -, -⟩ := h id r₀ hid hr₀
    have hmem : e.now ∈ (StoreEvent.call e (.updateEntry id entry)).clock.toList := by simp [StoreEvent.clock]
    have hle : r₀.created.time.ns ≤ e.now.ns := hlast _ hcreated _ hmem
    exact ⟨List.mem_append_left _ hcreated, hle, fun hcut => by cases hcut⟩

end Store

/-! ## Along a run -/

/-- The id of the entry that an operation is about. -/
def Op.names (e : Env) : Op → Option Bytes
  | .addEntry _ => some (generateId e.id)
  | .updateEntry id _ => some id
  | .deleteEntry id => some id
  | _ => none

theorem Op.outcome_frame {es : OrdMap Bytes Entry} {id : Bytes} (h : op.names e ≠ some id) :
    (op.outcome e es).2.find? id = es.find? id := by
  cases op with
  | addEntry entry => exact OrdMap.find?_insert_ne _ (fun hid => h (by rw [← hid]; rfl)) _
  | updateEntry id' entry =>
    have hid : id' ≠ id := fun hid => h (by rw [← hid]; rfl)
    cases hf : es.find? id' with
    | none => simp only [outcome, hf]
    | some old =>
      simp only [outcome, hf]
      exact OrdMap.find?_insert_ne _ hid _
  | deleteEntry id' =>
    have hid : id' ≠ id := fun hid => h (by rw [← hid]; rfl)
    change (es.erase id').find? id = _
    rw [OrdMap.find?_erase, if_neg hid]
  | getEntry id' => cases hf : es.find? id' <;> simp only [outcome, hf]
  | _ => rfl

/-- The operations on the entries of `b` answer from its store, after the run `evs` that started with the store `m₀`. -/
structure FromStore (S : Sodium) (F : Format) (m₀ : Store) (evs : List StoreEvent) (b : Book) : Prop where
  add : ∀ e entry, m₀ (generateId e.id) = none → e.id ∉ draws evs → b.store (generateId e.id) = none ∧
    (exec S F e (.addEntry entry) b.proc).1 = .ok (.id (generateId e.id)) ∧
    (exec S F e (.addEntry entry) b.proc).2.vault.entries.size = b.proc.vault.entries.size + 1
  get : ∀ e id, (exec S F e (.getEntry id) b.proc).1 = match b.store id with
    | none => .error (.exn (.runtimeError "Entry not found"))
    | some r => .ok (.entry (r.entry id))
  list : ∀ e, ∃ l, b.store.Lists l ∧ (exec S F e .listEntries b.proc).1 = .ok (.entries l) ∧
    (∀ query, (exec S F e (.search query) b.proc).1 = .ok (.entries (l.filter fun entry =>
      contains entry.name query || contains entry.username query))) ∧
    ∀ tag, (exec S F e (.searchByTag tag) b.proc).1 = .ok (.entries (l.filter fun entry => entry.tags.contains tag))
  frame : ∀ e op id, op.onEntries → op.names e ≠ some id →
    (exec S F e op b.proc).2.vault.entries.find? id = b.proc.vault.entries.find? id

theorem Book.Inv.fromStore {m₀ : Store} {evs : List StoreEvent} {b : Book} (h : b.Inv) (hd : Store.Drawn m₀ b.store evs) :
    FromStore S F m₀ evs b where
  add e entry hstart hfresh := by
    have hnone : b.store (generateId e.id) = none := by
      cases hr : b.store (generateId e.id) with
      | none => rfl
      | some r =>
        rcases hd _ r hr with hid | ⟨d, hmem, hid⟩
        · exact absurd hstart hid
        · rw [generateId_injective hid] at hfresh
          exact absurd hmem hfresh
    have hfind : b.proc.vault.entries.find? (generateId e.id) = none := by rw [h.refines, hnone, Option.map_none]
    rw [exec_onEntries rfl h.unlocked]
    exact ⟨hnone, rfl, OrdMap.size_insert_of_find?_none _ hfind _⟩
  get e id := by
    rw [exec_onEntries rfl h.unlocked]
    have hid := h.refines id
    cases hr : b.store id with
    | none =>
      rw [hr, Option.map_none] at hid
      simp only [Op.outcome, hid]
    | some r =>
      rw [hr, Option.map_some] at hid
      simp only [Op.outcome, hid]
  list e := by
    refine ⟨_, h.refines.lists, ?_, fun query => ?_, fun tag => ?_⟩ <;> rw [exec_onEntries rfl h.unlocked] <;> rfl
  frame e op id hop hid := by
    rw [exec_onEntries hop h.unlocked]
    exact Op.outcome_frame hid

theorem Book.step_store {b b' : Book} {ev : StoreEvent} (hstep : b.step S F ev = some b') : b'.store = b.store.after ev := by
  cases ev with
  | call e op =>
    obtain ⟨-, rfl⟩ := step_call.mp hstep
    rfl
  | cycle e passphrase back =>
    obtain ⟨p, p', -, -, -, rfl⟩ := step_cycle hstep
    rfl

/-- What every run keeps. -/
theorem Book.run_inv (hS : S.Correct) (hF : F.Lawful) {b₀ b : Book} (h : b₀.Inv) {evs : List StoreEvent}
    (hrun : runs (Book.step S F) b₀ evs = some b) (hkey : Along (Book.step S F) (Book.SameKey S F) b₀ evs) :
    b.Inv ∧ Store.Drawn b₀.store b.store evs ∧
      ((clocks evs).Pairwise (fun t u => t.ns ≤ u.ns) → Store.Timed b₀.store b.store evs) := by
  induction evs using List.reverseRecOn generalizing b with
  | nil =>
    cases hrun
    exact ⟨h, fun id r hr => .inl (by rw [hr]; exact Option.some_ne_none r), fun _ id r hn hr => by cases hn.symm.trans hr⟩
  | append_singleton evs ev ih =>
    obtain ⟨b₁, hrun, hstep⟩ := runs_snoc.mp hrun
    obtain ⟨hbefore, hlast, -⟩ := hkey.append hrun
    obtain ⟨hinv, hdrawn, htimed⟩ := ih hrun hbefore
    rw [Book.step_store hstep]
    refine ⟨Book.step_inv hS hF hinv hlast hstep, hdrawn.after, fun hc => ?_⟩
    have hfirst := hc
    rw [clocks_snoc] at hfirst
    exact (htimed (List.pairwise_append.mp hfirst).1).after hc

theorem Stamp.shown_le {s t : Stamp} (hle : s.time.ns ≤ t.time.ns) (hcut : t.cut = true → s.cut = true)
    (hepoch : 0 ≤ s.time.ns) : s.shown.ns ≤ t.shown.ns := by
  unfold Stamp.shown
  by_cases ht : t.cut = true
  · rw [if_pos ht, if_pos (hcut ht)]
    exact TimePoint.truncate_mono hle
  · rw [if_neg ht]
    split_ifs
    · exact (TimePoint.truncate_le hepoch).trans hle
    · exact hle

/-- Along every run of entry operations and of saves that reload, from any unlocked vault: the entries refine the store and
the operations answer from it, and an add with a new draw replaces nothing. When the clock does not go back and is not
before the epoch, no entry of the run is shown as modified before it was created. -/
theorem entry_store (hS : S.Correct) (hF : F.Lawful) (hp : Reachable S F p) (hs : p.vault.state = .unlocked)
    {evs : List StoreEvent} {b : Book} (hrun : runs (Book.step S F) (.start p) evs = some b)
    (hkey : Along (Book.step S F) (Book.SameKey S F) (.start p) evs) :
    b.store.Refines b.proc.vault.entries ∧ FromStore S F (.of p.vault.entries) evs b ∧
      ((clocks evs).Pairwise (fun t u => t.ns ≤ u.ns) → (∀ t ∈ clocks evs, 0 ≤ t.ns) →
        ∀ id r, p.vault.entries.find? id = none → b.store id = some r →
          (r.entry id).created.ns ≤ (r.entry id).modified.ns) := by
  have hstart : (Book.start p).Inv := ⟨hs, Store.refines_of hp.keyed⟩
  obtain ⟨hinv, hdrawn, htimed⟩ := Book.run_inv hS hF hstart hrun hkey
  refine ⟨hinv.refines, hinv.fromStore hdrawn, fun hc hepoch id r hid hr => ?_⟩
  have hnone : (Book.start p).store id = none := by
    change (p.vault.entries.find? id).map _ = none
    rw [hid, Option.map_none]
  obtain ⟨hcreated, hle, hcut⟩ := htimed hc id r hnone hr
  exact Stamp.shown_le hle hcut (hepoch _ hcreated)

/-- An entry is added and the vault saved, locked and unlocked. -/
def addedAndReloaded : List StoreEvent := [.call (Env.calm 8 .epoch) (.addEntry .blank),
  .cycle (Env.calm 9 .epoch) (ascii "passphrase") (.relock (Env.calm 10 .epoch))]

theorem entry_store_added : ∃ (b : Book) (r : Record), b.store (generateId (Block.const 16 8)) = some r ∧
    (exec .toy spec (Env.calm 11 .epoch) (.getEntry (generateId (Block.const 16 8))) b.proc).1 =
      .ok (.entry (r.entry (generateId (Block.const 16 8)))) := by
  have hcheck : (runs (Proc.step .toy spec) ⟨.fresh, fun _ => none⟩ createdRun).any fun p =>
      (runs (Book.step .toy spec) (.start p) addedAndReloaded).any fun b => p.vault.state = .unlocked ∧
        (b.store (generateId (Block.const 16 8))).isSome ∧
        Along (Book.step .toy spec) (Book.SameKey .toy spec) (.start p) addedAndReloaded := by
    decide +kernel
  obtain ⟨p, hp, hcheck⟩ := (Option.any_eq_true _ _).mp hcheck
  obtain ⟨b, hrun, hcheck⟩ := (Option.any_eq_true _ _).mp hcheck
  obtain ⟨hs, hsome, hkey⟩ := of_decide_eq_true hcheck
  obtain ⟨r, hr⟩ := Option.isSome_iff_exists.mp hsome
  have hanswers := (entry_store toy_correct spec_lawful ⟨_, _, hp⟩ hs hrun hkey).2.1
  refine ⟨b, r, hr, ?_⟩
  rw [hanswers.get, hr]

/-- An entry is added half a second before the epoch, reloaded, and updated a moment later. -/
def updatedBeforeEpoch : List StoreEvent := [.call (Env.calm 8 (.wrap (-500000000))) (.addEntry .blank),
  .cycle (Env.calm 9 .epoch) (ascii "passphrase") (.relock (Env.calm 10 .epoch)),
  .call (Env.calm 11 (.wrap (-400000000))) (.updateEntry (generateId (Block.const 16 8)) .blank)]

/-- It is shown as modified before it was created. -/
theorem entry_store_beforeEpoch : ∃ (p : Proc) (b : Book) (r : Record), Reachable .toy spec p ∧
    p.vault.state = .unlocked ∧ p.vault.entries = ∅ ∧
    runs (Book.step .toy spec) (.start p) updatedBeforeEpoch = some b ∧
    Along (Book.step .toy spec) (Book.SameKey .toy spec) (.start p) updatedBeforeEpoch ∧
    (draws updatedBeforeEpoch).Nodup ∧ (clocks updatedBeforeEpoch).Pairwise (fun t u => t.ns ≤ u.ns) ∧
    b.store (generateId (Block.const 16 8)) = some r ∧
    (r.entry (generateId (Block.const 16 8))).modified.ns < (r.entry (generateId (Block.const 16 8))).created.ns := by
  have hcheck : (runs (Proc.step .toy spec) ⟨.fresh, fun _ => none⟩ createdRun).any fun p =>
      (runs (Book.step .toy spec) (.start p) updatedBeforeEpoch).any fun b =>
        (b.store (generateId (Block.const 16 8))).any fun r => p.vault.state = .unlocked ∧ p.vault.entries = ∅ ∧
          (r.entry (generateId (Block.const 16 8))).modified.ns < (r.entry (generateId (Block.const 16 8))).created.ns ∧
          Along (Book.step .toy spec) (Book.SameKey .toy spec) (.start p) updatedBeforeEpoch := by
    decide +kernel
  obtain ⟨p, hp, hcheck⟩ := (Option.any_eq_true _ _).mp hcheck
  obtain ⟨b, hrun, hcheck⟩ := (Option.any_eq_true _ _).mp hcheck
  obtain ⟨r, hr, hcheck⟩ := (Option.any_eq_true _ _).mp hcheck
  obtain ⟨hs, hes, hlt, hkey⟩ := of_decide_eq_true hcheck
  exact ⟨p, b, r, ⟨_, _, hp⟩, hs, hes, hrun, hkey, by decide +kernel, by decide +kernel, hr, hlt⟩

end Passdoq
