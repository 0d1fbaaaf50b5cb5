import Passdoq.Vault.Store

/-!
# What becomes of a saved change

Two objects work on one vault file, each on its own copy of the entries, and the last one to save wins.

* `Lineage` : a world with, from the save of a change on, the objects whose copy comes from it and the data key that the
  file was last saved under;
* `Lineage.Careful` : a call that saves only from such a copy, completely, and does not touch the changed id;
* `update_kept` : in a run of careful calls the file keeps the change.
-/

namespace Passdoq
open Msgpack Crypto Vault

variable {S : Sodium} {F : Format} {e : Env} {p p' : Proc}

/-- A world in which objects go on from a save: those whose copy of the entries comes from it, and the data key of the
last save. -/
structure Lineage where
  world : World
  current : Nat → Bool
  key : Option Key

/-- Only the first bytes reach the file. -/
def WriteIO.cut : WriteIO → Bool
  | .short _ _ => true
  | _ => false

/-- The operations that end in a save. -/
def Op.isSave : Op → Bool
  | .save | .rekey _ => true
  | _ => false

namespace Lineage

/-- After the save of the object `i`. -/
def saved (i : Nat) (w : World) : Lineage := ⟨w, fun j => j = i, (w.vaults i).dataKey⟩

/-- After a call that returned `r` and led to `p`: a `load` or `unlock` that returns true gives the object the copy of the
file, a `load` that fails and a `lock` leave it with none. -/
def next (path : Bytes) (l : Lineage) (c : Call) (r : Except Fault Reply) (p : Proc) : Lineage where
  world := l.world.put c.obj p
  current := match c.op with
    | .load => Function.update l.current c.obj (p.vault.state = .unlocked ∧ r = .ok (.bool true))
    | .unlock _ => Function.update l.current c.obj (l.current c.obj ∨ r = .ok (.bool true))
    | .lock => Function.update l.current c.obj false
    | _ => l.current
  key := if p.fs path = l.world.fs path then l.key else p.vault.dataKey

def step (S : Sodium) (F : Format) (path : Bytes) (l : Lineage) (c : Call) : Option Lineage :=
  match l.world.call S F c with
  | (.error .trap, _) => none
  | (r, p) => some (l.next path c r p)

/-- The call saves: it returns true, or what it writes changes the file. -/
def Saves (S : Sodium) (F : Format) (path : Bytes) (l : Lineage) (c : Call) : Prop :=
  c.op.isSave ∧ ((l.world.call S F c).1 = .ok (.bool true) ∨ (l.world.call S F c).2.fs path ≠ l.world.fs path)

/-- The call does not touch the entry `id`, and it saves only from a current copy and not in part. -/
def Careful (S : Sodium) (F : Format) (path id : Bytes) (l : Lineage) (c : Call) : Prop :=
  c.op.names c.env ≠ some id ∧ (Saves S F path l c → l.current c.obj ∧ ¬ c.env.write.cut)

/-- A `load` or `unlock` that returns true has opened the entries, and secretbox opens nothing under another key than the
one it was encrypted with. -/
def SameKey (S : Sodium) (F : Format) (l : Lineage) (c : Call) : Prop :=
  c.op.readsEntries → (l.world.call S F c).1 = .ok (.bool true) →
    (l.world.call S F c).2.vault.state = .unlocked → (l.world.call S F c).2.vault.dataKey = l.key

/-- The file is a save of a vault that has `value` under `id`. -/
def FileKeeps (S : Sodium) (F : Format) (path id : Bytes) (value : Option Entry) (l : Lineage) : Prop :=
  ∃ nonce v data, Keyed v.entries ∧ fileBytes S F nonce v = .ok data ∧ l.world.fs path = some data ∧
    v.dataKey = l.key ∧ (v.entries.find? id).map Entry.truncate = value

structure Inv (S : Sodium) (F : Format) (path id : Bytes) (value : Option Entry) (objs : Nat → Prop) (l : Lineage) :
    Prop where
  bound : ∀ i, objs i → (l.world.vaults i).state ≠ .uninitialized ∧ (l.world.vaults i).path = path
  keyed : ∀ i, Keyed (l.world.vaults i).entries
  current : ∀ i, objs i → l.current i → (l.world.vaults i).state = .unlocked ∧
    ((l.world.vaults i).entries.find? id).map Entry.truncate = value
  file : FileKeeps S F path id value l

variable {l l' : Lineage} {c : Call} {path id : Bytes} {value : Option Entry} {objs : Nat → Prop}

theorem step_eq_some : l.step S F path c = some l' ↔ (l.world.call S F c).1 ≠ .error .trap ∧
    l.next path c (l.world.call S F c).1 (l.world.call S F c).2 = l' := by
  rw [step]
  rcases l.world.call S F c with ⟨(_ | _) | _, _⟩ <;> simp

end Lineage

theorem Moves.bound {op : Op} (h : Moves p op p') (hs : p.vault.state ≠ .uninitialized) :
    p'.vault.state ≠ .uninitialized ∧ p'.vault.path = p.vault.path := by
  refine ⟨?_, h.path_eq hs⟩
  cases h with
  | quiet _ hstate => rwa [hstate]
  | lock _ _ hstate => rw [hstate]; decide
  | write _ _ _ hstate => rw [hstate]; decide
  | aim _ hn => exact absurd hn hs
  | create hn => exact absurd hn hs
  | unlock _ _ hstate => rw [hstate]; decide

theorem save_whole (hs : p.vault.state = .unlocked) (hw : ¬ e.write.cut) :
    (save S F e p).2.fs = p.fs ∨ ∃ data, fileBytes S F e.nonce p.vault = .ok data ∧
      (save S F e p).2.fs = Function.update p.fs p.vault.path (some data) := by
  rw [save_unlocked hs]
  rcases Except.ok_or_error (fileBytes S F e.nonce p.vault) with ⟨data, hdata⟩ | ⟨f, hdata⟩ <;> rw [hdata]
  · cases hwrite : e.write with
    | refused => exact .inl rfl
    | short k good => exact absurd (congrArg WriteIO.cut hwrite) hw
    | full good => exact .inr ⟨data, rfl, rfl⟩
  · cases f <;> exact .inl rfl

theorem save_true_state (h : save S F e p = (.ok true, p')) : p.vault.state = .unlocked := by
  by_contra hs
  rw [save_locked hs] at h
  cases h

theorem full_of_true (h : save S F e p = (.ok true, p')) (hw : ¬ e.write.cut) : ∃ good, e.write = .full good := by
  rw [save_unlocked (save_true_state h)] at h
  cases hwrite : e.write with
  | refused =>
    rw [hwrite] at h
    rcases Except.ok_or_error (fileBytes S F e.nonce p.vault) with ⟨data, hdata⟩ | ⟨f, hdata⟩ <;> rw [hdata] at h
    · cases h
    · cases f <;> cases h
  | short k good => exact absurd (congrArg WriteIO.cut hwrite) hw
  | full good => exact ⟨good, rfl⟩

/-- What a call on a bound object writes, when no write is cut short: the save of the vault that it leaves, whose
entries are those it had. -/
theorem Effect.writes {op : Op} (h : Effect S F e p op p') (hs : p.vault.state ≠ .uninitialized)
    (hw : op.isSave → p.vault.state = .unlocked → ¬ e.write.cut) : p'.fs = p.fs ∨
      (op.isSave ∧ p.vault.state = .unlocked ∧ p'.vault.entries = p.vault.entries ∧
        ∃ data, fileBytes S F e.nonce p'.vault = .ok data ∧ p'.fs = Function.update p.fs p'.vault.path (some data)) := by
  cases h with
  | stay => exact .inl rfl
  | entries => exact .inl rfl
  | aim hn => exact absurd hn hs
  | create hn => exact absurd hn hs
  | «open» hn => exact absurd hn hs
  | unlock => exact .inl (load_fs _)
  | lock => exact .inl rfl
  | load => exact .inl (load_fs p)
  | save hun =>
    have hvault := save_vault S F e p
    rcases save_whole hun (hw rfl hun) with hfs | ⟨data, hdata, hfs⟩
    · exact .inl hfs
    · refine .inr ⟨rfl, hun, by rw [hvault], data, ?_, ?_⟩
      · rwa [hvault]
      · rwa [hvault]
  | @rekey newDataKey masterKey hlen hun =>
    have hvault := save_vault S F e (rekeyed S e p masterKey ⟨newDataKey, hlen⟩)
    have hrekeyed : (rekeyed S e p masterKey ⟨newDataKey, hlen⟩).vault.state = .unlocked := rfl
    rcases save_whole hrekeyed (hw rfl hun) with hfs | ⟨data, hdata, hfs⟩
    · exact .inl hfs
    · refine .inr ⟨rfl, hun, by rw [hvault]; rfl, data, ?_, ?_⟩
      · rwa [hvault]
      · rwa [hvault]

/-- The operations that replace or drop the copy of the entries. -/
def Op.reloads : Op → Bool
  | .load | .unlock _ | .lock => true
  | _ => false

/-- Any other call on an unlocked object keeps the entries that it does not name. -/
theorem Effect.keeps {op : Op} (h : Effect S F e p op p') (hs : p.vault.state = .unlocked) (hop : op.reloads = false)
    {id : Bytes} (hid : op.names e ≠ some id) :
    p'.vault.state = .unlocked ∧ p'.vault.entries.find? id = p.vault.entries.find? id := by
  cases h with
  | stay => exact ⟨hs, rfl⟩
  | entries => exact ⟨hs, Op.outcome_frame hid⟩
  | aim hn => cases hs.symm.trans hn
  | create hn => cases hs.symm.trans hn
  | «open» hn => cases hs.symm.trans hn
  | unlock => cases hop
  | lock => cases hop
  | load => cases hop
  | save =>
    rw [save_vault]
    exact ⟨hs, rfl⟩
  | rekey =>
    rw [save_vault]
    exact ⟨rfl, rfl⟩

theorem unlock_true_state {passphrase : Bytes} (h : unlock S F e passphrase p = (.ok true, p')) :
    p'.vault.state = .unlocked := by
  rcases unlock_cases S F e p passphrase with
    ⟨-, hu⟩ | ⟨-, f, -, hu⟩ | ⟨-, d, -, ⟨x, -, hu⟩ | ⟨p', hu⟩ | ⟨b, dk, -, -, hu⟩⟩ <;> rw [hu] at h
  · cases h
  · cases h
  · cases h
  · cases h
  · have hstate := load_state (S := S) (F := F) (e := e) (p.withKeys d.key dk)
    rw [h] at hstate
    exact hstate

namespace Lineage

variable {l l' : Lineage} {c : Call} {path id : Bytes} {value : Option Entry} {objs : Nat → Prop}

theorem vaults_of_ne {r : Except Fault Reply} {i : Nat} (hi : i ≠ c.obj) :
    (l.next path c r p).world.vaults i = l.world.vaults i := World.put_of_ne hi

theorem vaults_self {r : Except Fault Reply} : (l.next path c r p).world.vaults c.obj = p.vault := World.put_self

theorem current_of_ne {r : Except Fault Reply} {i : Nat} (hi : i ≠ c.obj) :
    (l.next path c r p).current i = l.current i := by
  unfold next
  cases c.op <;> simp [Function.update_of_ne hi]

theorem file_next (h : Inv S F path id value objs l) (hobj : objs c.obj) (hcare : Careful S F path id l c)
    (hr : (l.world.call S F c).1 ≠ .error .trap) :
    FileKeeps S F path id value (l.next path c (l.world.call S F c).1 (l.world.call S F c).2) := by
  obtain ⟨hs, hpath⟩ := h.bound c.obj hobj
  have heffect : Effect S F c.env (l.world.proc c.obj) c.op (l.world.call S F c).2 := exec_effect hr
  obtain ⟨nonce, v, data, hkeyed, hdata, hfile, hkey, hvalue⟩ := h.file
  -- the same bytes are the same save, whoever wrote them last
  by_cases hsame : (l.world.call S F c).2.fs path = l.world.fs path
  · refine ⟨nonce, v, data, hkeyed, hdata, hsame.trans hfile, ?_, hvalue⟩
    rw [hkey, next, if_pos hsame]
  · have hop : c.op.isSave := by
      by_contra hop
      rcases heffect.writes hs (fun h => absurd h hop) with hfs | ⟨h, -⟩
      · exact hsame (congrFun hfs path)
      · exact hop h
    obtain ⟨hcurrent, hcut⟩ := hcare.2 ⟨hop, .inr hsame⟩
    rcases heffect.writes hs (fun _ _ => hcut) with hfs | ⟨-, hun, hentries, data', hdata', hfs⟩
    · exact absurd (congrFun hfs path) hsame
    · have hpath' : (l.world.call S F c).2.vault.path = path := (heffect.moves.bound hs).2.trans hpath
      have hcurrent := h.current c.obj hobj hcurrent
      refine ⟨c.env.nonce, _, data', ?_, hdata', ?_, ?_, ?_⟩
      · rw [hentries]
        exact h.keyed c.obj
      · change (l.world.call S F c).2.fs path = _
        rw [hfs, hpath', Function.update_self]
      · rw [next, if_neg hsame]
      · rw [hentries]
        exact hcurrent.2

/-- What a call that returned true left, as a call on the object. -/
theorem call_true {op : Op} {x : Act Bool} (hop : c.op = op) (hx : exec S F c.env op = Reply.bool <$> x)
    (h : (l.world.call S F c).1 = .ok (.bool true)) :
    x (l.world.proc c.obj) = (.ok true, (l.world.call S F c).2) := by
  have hcall : l.world.call S F c = (Reply.bool <$> x) (l.world.proc c.obj) := by rw [World.call, hop, hx]
  rw [← map_bool, ← hcall, ← h]

theorem current_next (hS : S.Correct) (hF : F.Lawful) (h : Inv S F path id value objs l) (hobj : objs c.obj)
    (hcare : Careful S F path id l c) (hkey : SameKey S F l c) (hr : (l.world.call S F c).1 ≠ .error .trap)
    (hc : (l.next path c (l.world.call S F c).1 (l.world.call S F c).2).current c.obj) :
    (l.world.call S F c).2.vault.state = .unlocked ∧
      ((l.world.call S F c).2.vault.entries.find? id).map Entry.truncate = value := by
  obtain ⟨hs, hpath⟩ := h.bound c.obj hobj
  have heffect : Effect S F c.env (l.world.proc c.obj) c.op (l.world.call S F c).2 := exec_effect hr
  obtain ⟨nonce, v, data, hkeyed, hdata, hfile, hvkey, hvalue⟩ := h.file
  have hfile' : (l.world.proc c.obj).fs (l.world.proc c.obj).vault.path = some data := by
    change l.world.fs (l.world.vaults c.obj).path = some data
    rw [hpath, hfile]
  have hreloaded : ((reloaded v.entries).find? id).map Entry.truncate = value := by
    rw [reloaded, OrdMap.find?_mapVal, Option.map_map, ← hvalue]
    congr 1
    funext entry
    exact entry.truncate_truncate
  cases hop : c.op with
  | load =>
    rw [next, hop] at hc
    simp only [Function.update_self, decide_eq_true_eq] at hc
    obtain ⟨hun, htrue⟩ := hc
    have hload := call_true hop rfl htrue
    have hdk := hkey (by rw [hop]; rfl) htrue hun
    have hun₀ : (l.world.proc c.obj).vault.state = .unlocked := by
      rw [← load_state (S := S) (F := F) (e := c.env), hload]
      exact hun
    have hdk₀ : (l.world.proc c.obj).vault.dataKey = v.dataKey := by
      rw [hvkey, ← hdk, ← load_dataKey (S := S) (F := F) (e := c.env), hload]
    rw [load_reads hS hF hkeyed hdata hfile' hun₀ hload hdk₀]
    exact ⟨hun₀, hreloaded⟩
  | unlock passphrase =>
    rw [next, hop] at hc
    simp only [Function.update_self, decide_eq_true_eq] at hc
    rcases hc with hold | htrue
    · have hun := (h.current c.obj hobj hold).1
      have hstay : l.world.call S F c = (.ok (.bool false), l.world.proc c.obj) := by
        have hlocked : (l.world.proc c.obj).vault.state ≠ .locked := by
          change (l.world.vaults c.obj).state ≠ _
          rw [hun]
          decide
        rw [World.call, hop]
        refine map_bool.mpr ?_
        rcases unlock_cases S F c.env (l.world.proc c.obj) passphrase with ⟨-, hu⟩ | ⟨hn, -⟩ | ⟨hn, -⟩
        · exact hu
        · exact absurd hn hlocked
        · exact absurd hn hlocked
      rw [hstay]
      exact h.current c.obj hobj hold
    · have hunlock := call_true hop rfl htrue
      have hun := unlock_true_state hunlock
      have hdk := hkey (by rw [hop]; rfl) htrue hun
      obtain ⟨hstate, hentries⟩ := unlock_reads hS hF hkeyed hdata hfile' hunlock (hdk.trans hvkey.symm)
      rw [hentries]
      exact ⟨hstate, hreloaded⟩
  | lock =>
    rw [next, hop] at hc
    simp at hc
  | _ =>
    have hold : l.current c.obj := by
      rw [next, hop] at hc
      exact hc
    obtain ⟨hun, hcopy⟩ := h.current c.obj hobj hold
    obtain ⟨hstate, hfind⟩ := heffect.keeps hun (by rw [hop]; rfl) hcare.1
    rw [hfind]
    exact ⟨hstate, hcopy⟩

theorem step_inv (hS : S.Correct) (hF : F.Lawful) (h : Inv S F path id value objs l) (hobj : objs c.obj)
    (hcare : Careful S F path id l c) (hkey : SameKey S F l c) (hstep : l.step S F path c = some l') :
    Inv S F path id value objs l' := by
  obtain ⟨hr, rfl⟩ := step_eq_some.mp hstep
  obtain ⟨hs, hpath⟩ := h.bound c.obj hobj
  have heffect : Effect S F c.env (l.world.proc c.obj) c.op (l.world.call S F c).2 := exec_effect hr
  constructor
  · intro i hi
    by_cases hobj : i = c.obj
    · subst hobj
      rw [vaults_self]
      exact ⟨(heffect.moves.bound hs).1, (heffect.moves.bound hs).2.trans hpath⟩
    · rw [vaults_of_ne hobj]
      exact h.bound i hi
  · intro i
    by_cases hobj : i = c.obj
    · subst hobj
      rw [vaults_self]
      exact heffect.keyed (h.keyed _)
    · rw [vaults_of_ne hobj]
      exact h.keyed i
  · intro i hi hc
    by_cases hobj : i = c.obj
    · subst hobj
      rw [vaults_self]
      exact current_next hS hF h hi hcare hkey hr hc
    · rw [current_of_ne hobj] at hc
      rw [vaults_of_ne hobj]
      exact h.current i hi hc
  · exact file_next h hobj hcare hr

theorem run_inv (hS : S.Correct) (hF : F.Lawful) {evs : List Call} (h : Inv S F path id value objs l)
    (hobj : ∀ c ∈ evs, objs c.obj) (hcare : Along (Lineage.step S F path) (Careful S F path id) l evs)
    (hkey : Along (Lineage.step S F path) (SameKey S F) l evs) (hrun : runs (Lineage.step S F path) l evs = some l') :
    Inv S F path id value objs l' := by
  induction evs generalizing l with
  | nil =>
    cases hrun
    exact h
  | cons c evs ih =>
    obtain ⟨t, ht, hrun⟩ := runs_cons.mp hrun
    have hstep := step_inv hS hF h (hobj c List.mem_cons_self) hcare.1 hkey.1 ht
    exact ih hstep (fun c hc => hobj c (List.mem_cons_of_mem _ hc)) (hcare.2 t ht) (hkey.2 t ht) hrun

instance decidableCareful (S : Sodium) (F : Format) (path id : Bytes) (l : Lineage) (c : Call) :
    Decidable (Careful S F path id l c) := by
  unfold Careful Saves
  infer_instance

instance decidableSameKey (S : Sodium) (F : Format) (l : Lineage) (c : Call) : Decidable (SameKey S F l c) := by
  unfold SameKey
  infer_instance

end Lineage

/-- The objects and the files after a call. -/
def World.step (S : Sodium) (F : Format) (w : World) (c : Call) : Option World :=
  match w.call S F c with
  | (.error .trap, _) => none
  | (_, p) => some (w.put c.obj p)

theorem World.step_eq_some {w w' : World} {c : Call} : w.step S F c = some w' ↔
    (w.call S F c).1 ≠ .error .trap ∧ w.put c.obj (w.call S F c).2 = w' := by
  rw [World.step]
  rcases w.call S F c with ⟨(_ | _) | _, _⟩ <;> simp

theorem World.keyed {fs : FS} {evs : List Call} {w : World} (hrun : runs (World.step S F) (.start fs) evs = some w)
    (i : Nat) : Keyed (w.vaults i).entries := by
  have hinv : ∀ j, Keyed (w.vaults j).entries := by
    refine runs_preserves (I := fun w : World => ∀ j, Keyed (w.vaults j).entries) ?_ (fun _ => keyed_empty) hrun
    intro w c w' h hstep j
    obtain ⟨hr, rfl⟩ := World.step_eq_some.mp hstep
    by_cases hj : j = c.obj
    · subst hj
      rw [World.put_self]
      exact (exec_effect hr).keyed (h _)
    · rw [World.put_of_ne hj]
      exact h j
  exact hinv i

open Lineage in
/-- Once the save of the object `a` is on disk, what it held under an id is in the file after every later save that
returns true, when the calls on `a` and on the other object `b` after it are careful. -/
theorem update_kept (hS : S.Correct) (hF : F.Lawful) {fs : FS} {before : List Call} {w : World}
    (hw : runs (World.step S F) (.start fs) before = some w) {a b : Nat} (hb : (w.vaults b).state ≠ .uninitialized)
    (hpath : (w.vaults b).path = (w.vaults a).path)
    (hsave : w.call S F ⟨a, e, .save⟩ = (.ok (.bool true), p)) (hfull : ∃ good, e.write = .full good) {id : Bytes}
    {after : List Call} {l : Lineage} (hobj : ∀ c ∈ after, c.obj = a ∨ c.obj = b)
    (hrun : runs (Lineage.step S F (w.vaults a).path) (.saved a (w.put a p)) after = some l)
    (hcare : Along (Lineage.step S F (w.vaults a).path) (Careful S F (w.vaults a).path id) (.saved a (w.put a p)) after)
    (hkey : Along (Lineage.step S F (w.vaults a).path) (SameKey S F) (.saved a (w.put a p)) after) {i : Nat}
    (hi : i = a ∨ i = b) {e' : Env} (hlast : l.world.call S F ⟨i, e', .save⟩ = (.ok (.bool true), p'))
    (hcare' : Careful S F (w.vaults a).path id l ⟨i, e', .save⟩) : ∃ data, p'.fs (w.vaults a).path = some data ∧
      ∀ e'', ∃ h es, decodeFile S F e'' p'.vault data = .ok (h, es) ∧
        es.find? id = ((w.vaults a).entries.find? id).map Entry.truncate := by
  have hsaved : save S F e (w.proc a) = (.ok true, p) := map_bool.mp hsave
  have hun : (w.vaults a).state = .unlocked := save_true_state hsaved
  have hsaves := saves_of_true hun hsaved hfull
  have hsame : ∀ j, (w.put a p).vaults j = w.vaults j := by
    intro j
    by_cases hj : j = a
    · rw [hj, World.put_self]
      exact save_vault_eq hsaves
    · exact World.put_of_ne hj
  have hstart : Inv S F (w.vaults a).path id (((w.vaults a).entries.find? id).map Entry.truncate) (fun i => i = a ∨ i = b)
      (.saved a (w.put a p)) := by
    obtain ⟨-, data, hdata, hfile⟩ := hsaves
    constructor
    · intro j hj
      rw [saved, hsame]
      rcases hj with rfl | rfl
      · exact ⟨by rw [hun]; decide, rfl⟩
      · exact ⟨hb, hpath⟩
    · intro j
      rw [saved, hsame]
      exact World.keyed hw j
    · intro j _ hj
      have hja : j = a := of_decide_eq_true hj
      rw [saved, hsame, hja]
      exact ⟨hun, rfl⟩
    · refine ⟨e.nonce, w.vaults a, data, World.keyed hw a, hdata, ?_, ?_, rfl⟩
      · rw [← hsame a, World.put_self]
        exact hfile
      · rw [saved, hsame]
  have hinv := run_inv hS hF hstart hobj hcare hkey hrun
  have hlast' : save S F e' (l.world.proc i) = (.ok true, p') := map_bool.mp hlast
  have hun' : (l.world.vaults i).state = .unlocked := save_true_state hlast'
  obtain ⟨hcurrent, hcut⟩ := hcare'.2 ⟨rfl, .inl (congrArg Prod.fst hlast)⟩
  have hsaves' := saves_of_true hun' hlast' (full_of_true hlast' hcut)
  have hvault := save_vault_eq hsaves'
  obtain ⟨-, data, hdata, hfile⟩ := hsaves'
  refine ⟨data, ?_, fun e'' => ?_⟩
  · rw [← (hinv.bound i hi).2]
    rw [hvault] at hfile
    exact hfile
  · have hstate : p'.vault.state = .unlocked := by rw [hvault]; exact hun'
    have hdk : p'.vault.dataKey = (l.world.proc i).vault.dataKey := by rw [hvault]
    have hdec := decodeFile_fileBytes hS hF (hinv.keyed i) hdata e'' hstate hdk
    refine ⟨_, _, hdec, ?_⟩
    rw [reloaded, OrdMap.find?_mapVal]
    exact (hinv.current i hi hcurrent).2

/-- One object creates a vault, a second one unlocks it, and the first adds an entry. -/
def sharedRun : List Call := [
  ⟨0, Env.calm 7 .epoch, .create (ascii "vault") (ascii "passphrase")⟩,
  ⟨1, Env.calm 8 .epoch, .open (ascii "vault")⟩,
  ⟨1, Env.calm 9 .epoch, .unlock (ascii "passphrase")⟩,
  ⟨0, Env.calm 10 .epoch, .addEntry .blank⟩]

/-- The id of that entry. -/
def sharedId : Bytes := generateId (Block.const 16 10)

theorem update_kept_loaded : ∃ w p l p' data, runs (World.step .toy spec) (.start fun _ => none) sharedRun = some w ∧
    w.call .toy spec ⟨0, Env.calm 11 .epoch, .save⟩ = (.ok (.bool true), p) ∧
    runs (Lineage.step .toy spec (w.vaults 0).path) (.saved 0 (w.put 0 p)) [⟨1, Env.calm 12 .epoch, .load⟩] = some l ∧
    l.world.call .toy spec ⟨1, Env.calm 13 .epoch, .save⟩ = (.ok (.bool true), p') ∧
    p'.fs (w.vaults 0).path = some data ∧ ∀ e'', ∃ h es, decodeFile .toy spec e'' p'.vault data = .ok (h, es) ∧
      es.find? sharedId = ((w.vaults 0).entries.find? sharedId).map Entry.truncate := by
  have hcheck : (runs (World.step .toy spec) (.start fun _ => none) sharedRun).any fun w =>
      let saved := w.call .toy spec ⟨0, Env.calm 11 .epoch, .save⟩
      let start := Lineage.saved 0 (w.put 0 saved.2)
      let after : List Call := [⟨1, Env.calm 12 .epoch, .load⟩]
      (runs (Lineage.step .toy spec (w.vaults 0).path) start after).any fun l =>
        decide ((w.vaults 1).state ≠ .uninitialized ∧ (w.vaults 1).path = (w.vaults 0).path ∧ saved.1 = .ok (.bool true) ∧
          Along (Lineage.step .toy spec (w.vaults 0).path)
            (Lineage.Careful .toy spec (w.vaults 0).path sharedId) start after ∧
          Along (Lineage.step .toy spec (w.vaults 0).path) (Lineage.SameKey .toy spec) start after ∧
          (l.world.call .toy spec ⟨1, Env.calm 13 .epoch, .save⟩).1 = .ok (.bool true) ∧
          Lineage.Careful .toy spec (w.vaults 0).path sharedId l ⟨1, Env.calm 13 .epoch, .save⟩) := by
    decide +kernel
  obtain ⟨w, hw, hcheck⟩ := (Option.any_eq_true _ _).mp hcheck
  obtain ⟨l, hrun, hcheck⟩ := (Option.any_eq_true _ _).mp hcheck
  obtain ⟨hb, hpath, hsave, hcare, hkey, hlast, hcare'⟩ := of_decide_eq_true hcheck
  have hsave' : w.call .toy spec ⟨0, Env.calm 11 .epoch, .save⟩ =
      (.ok (.bool true), (w.call .toy spec ⟨0, Env.calm 11 .epoch, .save⟩).2) := hsave ▸ Prod.mk.eta.symm
  have hlast' : l.world.call .toy spec ⟨1, Env.calm 13 .epoch, .save⟩ =
      (.ok (.bool true), (l.world.call .toy spec ⟨1, Env.calm 13 .epoch, .save⟩).2) := hlast ▸ Prod.mk.eta.symm
  have hobj : ∀ c ∈ [Call.mk 1 (Env.calm 12 .epoch) .load], c.obj = 0 ∨ c.obj = 1 := by simp
  obtain ⟨data, hdata, hdec⟩ :=
    update_kept toy_correct spec_lawful hw hb hpath hsave' ⟨true, rfl⟩ hobj hrun hcare hkey (.inr rfl) hlast' hcare'
  exact ⟨w, _, l, _, data, hw, hsave', hrun, hlast', hdata, hdec⟩

/-- Without the load, the save of the second object drops the entry that the first one saved. -/
theorem update_kept_stale : ∃ w p p' data h es, runs (World.step .toy spec) (.start fun _ => none) sharedRun = some w ∧
    w.call .toy spec ⟨0, Env.calm 11 .epoch, .save⟩ = (.ok (.bool true), p) ∧
    (w.put 0 p).call .toy spec ⟨1, Env.calm 13 .epoch, .save⟩ = (.ok (.bool true), p') ∧
    (w.vaults 0).entries.find? sharedId ≠ none ∧ p'.fs (w.vaults 0).path = some data ∧
    decodeFile .toy spec (Env.calm 13 .epoch) p'.vault data = .ok (h, es) ∧ es.find? sharedId = none := by
  have hcheck : (runs (World.step .toy spec) (.start fun _ => none) sharedRun).any fun w =>
      let saved := w.call .toy spec ⟨0, Env.calm 11 .epoch, .save⟩
      let last := (w.put 0 saved.2).call .toy spec ⟨1, Env.calm 13 .epoch, .save⟩
      (last.2.fs (w.vaults 0).path).any fun data =>
        (decodeFile .toy spec (Env.calm 13 .epoch) last.2.vault data).toOption.any fun r =>
          decide (saved.1 = .ok (.bool true) ∧ last.1 = .ok (.bool true) ∧
            (w.vaults 0).entries.find? sharedId ≠ none ∧ r.2.find? sharedId = none) := by
    decide +kernel
  obtain ⟨w, hw, hcheck⟩ := (Option.any_eq_true _ _).mp hcheck
  obtain ⟨data, hdata, hcheck⟩ := (Option.any_eq_true _ _).mp hcheck
  obtain ⟨⟨h, es⟩, hdec, hcheck⟩ := (Option.any_eq_true _ _).mp hcheck
  obtain ⟨hsave, hlast, hfound, hnone⟩ := of_decide_eq_true hcheck
  refine ⟨w, _, _, data, h, es, hw, hsave ▸ Prod.mk.eta.symm, hlast ▸ Prod.mk.eta.symm, hfound, hdata, ?_, hnone⟩
  rcases Except.ok_or_error (decodeFile .toy spec (Env.calm 13 .epoch) _ data) with ⟨r, hr⟩ | ⟨f, hr⟩
  · rw [hr] at hdec
    rw [hr, Option.some.inj hdec]
  · rw [hr] at hdec
    cases hdec

end Passdoq
