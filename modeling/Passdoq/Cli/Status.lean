import Passdoq.Cli.Application
import Passdoq.Vault.Bounds
import Passdoq.Vault.World

/-!
# What the exit status says

* `decoded` : the entries that the vault file holds; `Command.request` : what a command asks to become of them;
* `Truthful` : the status is 0 exactly when the file now holds what was asked for, and otherwise the file is as before;
* `access_true`, `main_returns`, `main_fails` : what an invocation does;
* `exit_status` : the status is truthful exactly when every step of the command goes through, or none has to.
-/

namespace Passdoq
open Msgpack Crypto Vault

variable {S : Sodium} {F : Format} {e : Env} {p p' : Proc}

/-- At least `n` bytes of a write reach the file. -/
def WriteIO.takes (n : Nat) : WriteIO → Prop
  | .refused => False
  | .short k _ => n ≤ k
  | .full _ => True

instance decidableTakes (n : Nat) : (io : WriteIO) → Decidable (io.takes n)
  | .refused => inferInstanceAs (Decidable False)
  | .short k _ => inferInstanceAs (Decidable (n ≤ k))
  | .full _ => inferInstanceAs (Decidable True)

theorem writeFile_cases (fs : FS) (path : Bytes) (io : WriteIO) (b : Bytes) :
    (io = .refused ∧ (writeFile fs path io b).2 = fs) ∨
    (io ≠ .refused ∧ ¬ io.takes b.length ∧
      ∃ k < b.length, (writeFile fs path io b).2 = Function.update fs path (some (b.take k))) ∨
    (io ≠ .refused ∧ io.takes b.length ∧ (writeFile fs path io b).2 = Function.update fs path (some b)) := by
  cases io with
  | refused => exact .inl ⟨rfl, rfl⟩
  | short k good =>
    by_cases hk : b.length ≤ k
    · refine .inr (.inr ⟨nofun, hk, ?_⟩)
      rw [writeFile, List.take_of_length_le hk]
    · exact .inr (.inl ⟨nofun, hk, k, by omega, rfl⟩)
  | full good => exact .inr (.inr ⟨nofun, trivial, rfl⟩)

theorem save_files (hs : p.vault.state = .unlocked) : (save S F e p).2.fs = match fileBytes S F e.nonce p.vault with
    | .ok b => (writeFile p.fs p.vault.path e.write b).2
    | .error _ => p.fs := by
  rw [save_unlocked hs]
  rcases fileBytes S F e.nonce p.vault with (_ | _) | b <;> rfl

namespace Cli

variable {i : Invocation} {fs : FS} {v : Vault} {es want : OrdMap Bytes Entry}

/-! ## The entries of the vault file -/

/-- What `open` and `unlock` make of a fresh object. -/
def access (S : Sodium) (F : Format) (i : Invocation) (fs : FS) : Except Fault Bool × Proc :=
  reopen S F i.opening i.unlocking i.password ⟨{ Vault.fresh with path := i.path }, fs⟩

/-- Reads go well and Argon2id has its memory. -/
def willing (e : Env) : Env := { e with read := .whole, alloc := true }

def Invocation.willing (i : Invocation) : Invocation :=
  { i with opening := Cli.willing i.opening, unlocking := Cli.willing i.unlocking }

/-- The entries that a fresh object reads from the vault file with the password, when nothing hinders it. -/
def decoded (S : Sodium) (F : Format) (i : Invocation) (fs : FS) : Option (OrdMap Bytes Entry) :=
  match access S F i.willing fs with
  | (.ok true, p) => some p.vault.entries
  | _ => none

/-- The vault that an invocation has unlocked. -/
structure Accessed (S : Sodium) (F : Format) (i : Invocation) (fs : FS) (v : Vault) : Prop where
  unlocked : v.state = .unlocked
  path : v.path = i.path
  dataKey : v.dataKey.isSome
  keyed : Keyed v.entries
  decoded : decoded S F i fs = some v.entries
  /-- a save of other entries is read back -/
  resaved : ∀ {nonce : Nonce} {es : OrdMap Bytes Entry} {b : Bytes} {fs' : FS}, Keyed es →
    fileBytes S F nonce { v with entries := es } = .ok b → fs' i.path = some b → Cli.decoded S F i fs' = some (reloaded es)

theorem deriveMasterKey_alloc {fresh : Salt} {alloc : Bool} {beyond : Option Bytes} {passphrase salt : Bytes}
    {d : DerivedKey} (h : deriveMasterKey S fresh alloc beyond passphrase salt = .ok d) : alloc = true := by
  obtain ⟨arg, -, h⟩ := Except.bind_eq_ok.mp h
  by_contra ha
  rw [if_neg ha] at h
  cases h

/-- An `open` that returns true has read the header, and nothing else. -/
theorem open_reads {path : Bytes} (h : «open» S F e path ⟨.fresh, fs⟩ = (.ok true, p)) :
    e.read = .whole ∧ ∃ data map hdr, fs path = some data ∧ fileMap F data = .ok map ∧ decodeHeader map = .ok hdr ∧
      p = ⟨⟨path, .locked, hdr, none, none, ∅⟩, fs⟩ := by
  rcases open_cases S F e ⟨.fresh, fs⟩ path with ⟨hn, -⟩ | ⟨-, p', hl, ho⟩ | ⟨-, r, p', -, hr, ho⟩
  · exact absurd rfl hn
  · rcases load_cases S F e (Proc.withPath ⟨.fresh, fs⟩ path) with
      ⟨data, hdr, es, hfs, hread, hdec, hl'⟩ | ⟨-, r, hdr, es, hl', hr, -⟩
    · obtain ⟨map, hmap, hhdr, -⟩ := decodeFile_map hdec
      have hes : es = ∅ := (decodeFile_entries hdec).1 nofun
      refine ⟨hread, data, map, hdr, hfs, hmap, hhdr, ?_⟩
      rw [hl, Prod.mk.injEq] at hl'
      rw [ho, hl'.2, hes] at h
      exact (Prod.mk.inj h).2.symm
    · rw [hl, Prod.mk.injEq] at hl'
      rcases hr with rfl | rfl <;> cases hl'.1
  · rw [ho] at h
    exact absurd (Prod.mk.inj h).1 hr

theorem open_willing {path : Bytes} (h : e.read = .whole) : «open» S F (willing e) path = «open» S F e path := by
  have hread : willing e = { e with alloc := true } := by rw [willing, ← h]
  rw [hread]
  rfl

theorem willing_eq (hr : e.read = .whole) (ha : e.alloc = true) : willing e = e := by rw [willing, ← hr, ← ha]

theorem access_willing (ho : i.opening.read = .whole) (hu : i.unlocking.read = .whole) (ha : i.unlocking.alloc = true) :
    access S F i.willing fs = access S F i fs := by
  change reopen S F (willing i.opening) (willing i.unlocking) i.password ⟨{ Vault.fresh with path := i.path }, fs⟩ = _
  rw [willing_eq hu ha, reopen, open_willing ho]
  rfl

theorem access_eq (S : Sodium) (F : Format) (i : Invocation) (fs : FS) :
    access S F i fs = (do
      if ← «open» S F i.opening i.path then unlock S F i.unlocking i.password
      else return false : Act Bool) ⟨.fresh, fs⟩ := rfl

/-- Past a header that was read, the access is the `unlock`. -/
theorem access_opened {p₁ : Proc} (h : «open» S F i.opening i.path ⟨.fresh, fs⟩ = (.ok true, p₁)) :
    access S F i fs = unlock S F i.unlocking i.password p₁ := by
  rw [access, reopen_eq h]

/-- The header that an access has read and the keys that it has unwrapped. -/
structure Opened (S : Sodium) (F : Format) (i : Invocation) (fs : FS) (h : VaultHeader) (d : DerivedKey) (dk : Key) :
    Prop where
  reads : i.opening.read = .whole ∧ i.unlocking.read = .whole
  opens : «open» S F i.opening i.path ⟨.fresh, fs⟩ = (.ok true, ⟨⟨i.path, .locked, h, none, none, ∅⟩, fs⟩)
  derives : deriveMasterKey S i.unlocking.salt i.unlocking.alloc i.unlocking.beyond i.password h.salt = .ok d
  unwraps : ∃ b, unwrap S i.unlocking h d.key = .ok b ∧ copyInto i.unlocking.beyond DATA_KEY_SIZE b = .ok dk

theorem access_reads (h : access S F i fs = (.ok true, p)) : ∃ hdr d dk es, Opened S F i fs hdr d dk ∧ Keyed es ∧
    p = ⟨⟨i.path, .unlocked, hdr, some d.key, some dk, es⟩, fs⟩ := by
  obtain ⟨opened, p₁, ho, hu⟩ := Eff.bind_eq_ok.mp h
  have hopen : «open» S F i.opening i.path ⟨.fresh, fs⟩ = (.ok opened, p₁) := ho
  cases opened with
  | false => cases hu
  | true =>
    obtain ⟨hread, data, map, hdr, hfs, hmap, hhdr, rfl⟩ := open_reads hopen
    have hunlock : unlock S F i.unlocking i.password ⟨⟨i.path, .locked, hdr, none, none, ∅⟩, fs⟩ = (.ok true, p) := hu
    rcases unlock_cases S F i.unlocking ⟨⟨i.path, .locked, hdr, none, none, ∅⟩, fs⟩ i.password with
      ⟨-, hx⟩ | ⟨-, f, -, hx⟩ | ⟨-, d, hd, ⟨x, -, hx⟩ | ⟨p', hx⟩ | ⟨b, dk, hun, hk, hx⟩⟩ <;> rw [hx] at hunlock
    · cases hunlock
    · cases hunlock
    · cases hunlock
    · cases hunlock
    · rcases load_cases S F i.unlocking (Proc.withKeys ⟨⟨i.path, .locked, hdr, none, none, ∅⟩, fs⟩ d.key dk) with
        ⟨data', hdr', es, hfs', hread', hdec, hl⟩ | ⟨-, r, hdr', es, hl, hr, -⟩ <;> rw [hl, Prod.mk.injEq] at hunlock
      · -- the file that was opened is the one that is loaded, so the header stays
        obtain ⟨map', hmap', hhdr', -⟩ := decodeFile_map hdec
        have hdata : data = data' := Option.some.inj (hfs.symm.trans hfs')
        rw [← hdata, hmap, Except.ok.injEq] at hmap'
        rw [← hmap', hhdr, Except.ok.injEq] at hhdr'
        refine ⟨hdr, d, dk, es, ⟨⟨hread, hread'⟩, hopen, hd, b, hun, hk⟩, (decodeFile_entries hdec).2 keyed_empty, ?_⟩
        rw [← hunlock.2, ← hhdr']
        rfl
      · rcases hr with rfl | rfl <;> cases hunlock.1

/-- After a save under the same header and keys an access reads what was saved. -/
theorem Opened.resaved (hS : S.Correct) (hF : F.Lawful) {h : VaultHeader} {d : DerivedKey} {dk : Key}
    (ho : Opened S F i fs h d dk) {v : Vault} (hv : v.header = h) (hdk : v.dataKey = some dk) {nonce : Nonce} {b : Bytes}
    {fs' : FS} (hk : Keyed v.entries) (hb : fileBytes S F nonce v = .ok b) (hfs : fs' i.path = some b) :
    access S F i fs' = (.ok true, ⟨⟨i.path, .unlocked, h, some d.key, some dk, reloaded v.entries⟩, fs'⟩) := by
  obtain ⟨key, hun, hcopy⟩ := ho.unwraps
  have hopen := open_saved hF hb hfs ho.reads.1
  rw [hv] at hopen
  rw [access_opened hopen, unlock_loads rfl ho.derives hun hcopy,
    load_ok hfs ho.reads.2 (decodeFile_fileBytes hS hF hk hb _ rfl hdk.symm), hv]
  rfl

theorem access_true (hS : S.Correct) (hF : F.Lawful) (h : access S F i fs = (.ok true, p)) :
    ∃ v, p = ⟨v, fs⟩ ∧ Accessed S F i fs v := by
  obtain ⟨hdr, d, dk, es, ho, hkeyed, rfl⟩ := access_reads h
  have halloc := deriveMasterKey_alloc ho.derives
  have hsame : ∀ fs', access S F i.willing fs' = access S F i fs' := fun fs' =>
    access_willing ho.reads.1 ho.reads.2 halloc
  refine ⟨_, rfl, rfl, rfl, rfl, hkeyed, ?_, fun {nonce es' b fs'} hk hb hfs => ?_⟩
  · rw [Cli.decoded, hsame, h]
  · rw [Cli.decoded, hsame, ho.resaved hS hF rfl rfl hk hb hfs]

/-! ## What an invocation does -/

theorem access_fs (S : Sodium) (F : Format) (i : Invocation) (fs : FS) : (access S F i fs).2.fs = fs := by
  rw [access_eq]
  refine (open_keeps S F i.opening i.path).bind (fun opened => ?_) ⟨.fresh, fs⟩
  cases opened with
  | false => exact Eff.keeps_pure _
  | true => exact unlock_keeps S F i.unlocking i.password

/-- On a fresh object `ensure_vault_unlocked` opens and unlocks. -/
theorem ensureVaultUnlocked_fresh (S : Sodium) (F : Format) (i : Invocation) (fs : FS) :
    ensureVaultUnlocked S F i ⟨.fresh, fs⟩ = access S F i fs := by
  have hopened : ensureVaultOpen S F i ⟨.fresh, fs⟩ = «open» S F i.opening i.path ⟨.fresh, fs⟩ := by
    simp only [ensureVaultOpen, Eff.bind_apply, getVault_apply, Vault.fresh, if_true]
    rcases «open» S F i.opening i.path _ with ⟨f | (_ | _), p⟩ <;> rfl
  rw [ensureVaultUnlocked, Eff.bind_apply, hopened]
  rcases ho : «open» S F i.opening i.path ⟨.fresh, fs⟩ with ⟨f | (_ | _), p⟩
  · rw [access_eq, Eff.bind_apply, ho]
  · rw [access_eq, Eff.bind_apply, ho]
    rfl
  · obtain ⟨-, data, map, hdr, -, -, -, rfl⟩ := open_reads ho
    rw [access_opened ho]
    change (unlock S F i.unlocking i.password >>= fun unlocked =>
      if ¬ unlocked then pure false else pure true : Act Bool) _ = _
    rw [Eff.bind_apply]
    rcases unlock S F i.unlocking i.password _ with ⟨f | (_ | _), p⟩ <;> rfl

/-- What the command makes of the entries, the change made at the time `now`, when it does not stop: an `add` under the
drawn `id`, an `update` or a confirmed `delete` of an entry that is there. -/
def Command.edit (c : Command) (id : Bytes) (now : TimePoint) (es : OrdMap Bytes Entry) : Option (OrdMap Bytes Entry) :=
  match c with
  | .add name username secret tags =>
    some (es.insert id ⟨id, name, username, secret, ∅, splitTags tags, now, now⟩)
  | .update id' name username updateSecret secret => (es.find? id').map fun old =>
    es.insert id' { revised name username updateSecret secret old with id := id', modified := now }
  | .delete id' _ => if (es.find? id').isSome then some (es.erase id') else none

/-- A `delete` is confirmed with `yes`. -/
def Command.Confirmed : Command → Prop
  | .delete _ confirm => confirm = ascii "yes"
  | _ => True

theorem Command.edit_keyed {c : Command} {id : Bytes} {now : TimePoint} (hk : Keyed es) (h : c.edit id now es = some want) :
    Keyed want := by
  cases c with
  | add name username secret tags =>
    obtain rfl := Option.some.inj h
    exact hk.insert ⟨id, name, username, secret, ∅, splitTags tags, now, now⟩
  | update id' name username updateSecret secret =>
    obtain ⟨old, -, rfl⟩ := Option.map_eq_some_iff.mp h
    exact hk.insert { revised name username updateSecret secret old with id := id', modified := now }
  | delete id' confirm =>
    unfold edit at h
    dsimp only at h
    split_ifs at h
    obtain rfl := Option.some.inj h
    exact hk.erase id'

/-- A reload does not tell the time of a change from its seconds. -/
theorem Command.edit_truncate (c : Command) (id : Bytes) (now : TimePoint) (es : OrdMap Bytes Entry) :
    (c.edit id now.truncate es).map reloaded = (c.edit id now es).map reloaded := by
  cases c with
  | add name username secret tags =>
    simp only [edit, Option.map_some, reloaded, OrdMap.mapVal_insert, Entry.truncate, TimePoint.truncate_truncate]
  | update id' name username updateSecret secret =>
    cases hf : es.find? id' with
    | none => simp only [edit, hf, Option.map_none]
    | some old =>
      simp only [edit, hf, Option.map_some, reloaded, OrdMap.mapVal_insert, Entry.truncate, TimePoint.truncate_truncate]
  | delete id' confirm => rfl

def withEntries (v : Vault) (fs : FS) (es : OrdMap Bytes Entry) : Proc := ⟨{ v with entries := es }, fs⟩

def Invocation.edit (i : Invocation) (es : OrdMap Bytes Entry) : Option (OrdMap Bytes Entry) :=
  i.command.edit (generateId i.changing.id) i.changing.now es

theorem save_status (hd : v.dataKey.isSome) (fs : FS) (es : OrdMap Bytes Entry) :
    ∃ n, (do
      let saved ← save S F e
      if ¬ saved then return 1
      return 0 : Act Nat) (withEntries v fs es) = (.ok n, (save S F e (withEntries v fs es)).2) := by
  obtain ⟨b, hb⟩ := save_returns (S := S) (F := F) (e := e) (p := withEntries v fs es) fun _ => hd
  rw [Eff.bind_apply, hb]
  cases b with
  | false => exact ⟨1, rfl⟩
  | true => exact ⟨0, rfl⟩

/-- Past the access a command makes its change, if it can, and saves. -/
theorem callback_accessed (hc : i.command.Confirmed) (hs : v.state = .unlocked) (hd : v.dataKey.isSome)
    (h : access S F i fs = (.ok true, ⟨v, fs⟩)) :
    ∃ n, callback S F i ⟨.fresh, fs⟩ = (.ok n, match i.edit v.entries with
      | none => ⟨v, fs⟩
      | some es => (save S F i.saving (withEntries v fs es)).2) := by
  have hens := (ensureVaultUnlocked_fresh S F i fs).trans h
  have hu : (⟨v, fs⟩ : Proc).vault.state = .unlocked := hs
  unfold callback Invocation.edit
  cases hcmd : i.command with
  | add name username secret tags =>
    dsimp only
    rw [cmdAdd, Eff.bind_apply, hens]
    change ∃ n, (addEntry i.changing _ >>= _ : Act Nat) ⟨v, fs⟩ = _
    rw [Eff.bind_apply, addEntry_unlocked hu]
    exact save_status hd _ _
  | update id name username updateSecret secret =>
    dsimp only
    rw [cmdUpdate, Eff.bind_apply, hens]
    change ∃ n, Eff.catching _ (getEntry id >>= _ : Act Nat) _ ⟨v, fs⟩ = _
    cases hf : v.entries.find? id with
    | none =>
      simp only [Command.edit, hf]
      rw [Eff.catching_apply, Eff.bind_apply, getEntry_unlocked hu]
      dsimp only
      rw [hf]
      exact ⟨1, rfl⟩
    | some old =>
      simp only [Command.edit, hf, Option.map_some]
      obtain ⟨n, hn⟩ := save_status hd fs (v.entries.insert id
        { Command.revised name username updateSecret secret old with id := id, modified := i.changing.now })
      refine ⟨n, Eff.catching_of_ok ?_⟩
      rw [Eff.bind_apply, getEntry_unlocked hu]
      dsimp only
      rw [hf]
      dsimp only
      rw [Eff.bind_apply, updateEntry_some hu hf]
      exact hn
  | delete id confirm =>
    have hyes : confirm = ascii "yes" := by
      rw [hcmd] at hc
      exact hc
    dsimp only
    rw [cmdDelete, Eff.bind_apply, hens]
    change ∃ n, (if confirm ≠ ascii "yes" then pure 0 else deleteEntry id >>= _ : Act Nat) ⟨v, fs⟩ = _
    rw [if_neg (not_not.mpr hyes), Eff.bind_apply, deleteEntry_unlocked hu]
    cases hf : v.entries.find? id with
    | none =>
      simp only [Command.edit, hf]
      refine ⟨1, ?_⟩
      rw [OrdMap.erase_of_find?_none hf]
      rfl
    | some old =>
      simp only [Command.edit, hf, Option.isSome_some, if_true]
      exact save_status hd _ _

theorem callback_stopped {r : Except Fault Bool} (h : access S F i fs = (r, p)) (hr : r ≠ .ok true) :
    callback S F i ⟨.fresh, fs⟩ = match r with
      | .ok _ => (.ok 1, p)
      | .error f => (.error f, p) := by
  have hens := (ensureVaultUnlocked_fresh S F i fs).trans h
  unfold callback
  cases hcmd : i.command with
  | add name username secret tags =>
    dsimp only
    rw [cmdAdd, Eff.bind_apply, hens]
    rcases r with f | (_ | _)
    · rfl
    · rfl
    · exact absurd rfl hr
  | update id name username updateSecret secret =>
    dsimp only
    rw [cmdUpdate, Eff.bind_apply, hens]
    rcases r with f | (_ | _)
    · rfl
    · rfl
    · exact absurd rfl hr
  | delete id confirm =>
    dsimp only
    rw [cmdDelete, Eff.bind_apply, hens]
    rcases r with f | (_ | _)
    · rfl
    · rfl
    · exact absurd rfl hr

/-- The invocation comes to the end of its callback: libsodium initializes, and neither `open` nor `unlock` throws. -/
def Returns (S : Sodium) (F : Format) (i : Invocation) (fs : FS) : Prop :=
  i.init = true ∧ ∃ b, (access S F i fs).1 = .ok b

def filesAfter (S : Sodium) (F : Format) (i : Invocation) (fs : FS) : FS :=
  match access S F i fs with
  | (.ok true, p) => match i.edit p.vault.entries with
    | none => fs
    | some es => (save S F i.saving (withEntries p.vault fs es)).2.fs
  | _ => fs

theorem main_callback (hinit : i.init = true) {n : Nat} (h : callback S F i ⟨.fresh, fs⟩ = (.ok n, p)) :
    main S F i fs = (.ok 0, p.fs) := by
  have hrun : run S F i ⟨.fresh, fs⟩ = (.ok 0, p) := by
    rw [run, hinit]
    change (callback S F i >>= fun _ => pure 0 : Act Nat) _ = _
    rw [Eff.bind_apply, h]
    rfl
  rw [main, Eff.catching_of_ok hrun]

theorem main_returns (hS : S.Correct) (hF : F.Lawful) (hc : i.command.Confirmed) (h : Returns S F i fs) :
    main S F i fs = (.ok 0, filesAfter S F i fs) := by
  obtain ⟨hinit, b, hb⟩ := h
  have hfs := access_fs S F i fs
  unfold filesAfter
  rcases ha : access S F i fs with ⟨r, p⟩
  rw [ha] at hb hfs
  subst hb
  cases b with
  | false => rw [main_callback hinit (callback_stopped ha (by simp)), hfs]
  | true =>
    obtain ⟨v, rfl, hacc⟩ := access_true hS hF ha
    obtain ⟨n, hn⟩ := callback_accessed hc hacc.unlocked hacc.dataKey ha
    rw [main_callback hinit hn]
    dsimp only
    cases i.edit v.entries <;> rfl

theorem main_fails (h : ¬ Returns S F i fs) : (main S F i fs).1 ≠ .ok 0 ∧ (main S F i fs).2 = fs := by
  cases hinit : i.init with
  | false =>
    have hrun : run S F i ⟨.fresh, fs⟩ = (.ok 1, ⟨.fresh, fs⟩) := by
      rw [run, hinit]
      rfl
    rw [main, Eff.catching_of_ok hrun]
    exact ⟨by simp, rfl⟩
  | true =>
    have hfs := access_fs S F i fs
    rcases ha : access S F i fs with ⟨f | b, p⟩
    · rw [ha] at hfs
      have hrun : run S F i ⟨.fresh, fs⟩ = (.error f, p) := by
        rw [run, hinit]
        change (callback S F i >>= fun _ => pure 0 : Act Nat) _ = _
        rw [Eff.bind_apply, callback_stopped ha (by simp)]
      rw [main, Eff.catching_apply, hrun]
      cases f with
      | exn x => exact ⟨by simp [Fault.isException], hfs⟩
      | trap => exact ⟨by simp [Fault.isException], hfs⟩
    · exact absurd ⟨hinit, b, by rw [ha]⟩ h

/-! ## The status and the file -/

/-- The entries with what the command asks for: one entry under an id that is new, or one entry changed or removed. A file
keeps the seconds of a time. -/
def Invocation.request (i : Invocation) (es : OrdMap Bytes Entry) : Option (OrdMap Bytes Entry) :=
  match i.command with
  | .add _ _ _ _ => if (es.find? (generateId i.changing.id)).isSome then none
    else i.command.edit (generateId i.changing.id) i.changing.now.truncate es
  | _ => i.command.edit (generateId i.changing.id) i.changing.now.truncate es

/-- The file in `fs'` holds the entries of the one in `fs` with the requested change. -/
def Shows (S : Sodium) (F : Format) (i : Invocation) (fs fs' : FS) : Prop :=
  ∃ es want, decoded S F i fs = some es ∧ i.request es = some want ∧ decoded S F i fs' = some want

/-- The status is 0 exactly when the file now shows the requested change; with any other status it holds what it held. -/
def Truthful (S : Sodium) (F : Format) (i : Invocation) (fs : FS) : Prop :=
  ((main S F i fs).1 = .ok 0 ↔ Shows S F i fs (main S F i fs).2) ∧
  ((main S F i fs).1 ≠ .ok 0 → decoded S F i (main S F i fs).2 = decoded S F i fs)

/-- The vault opens and unlocks, the request can be met, its times survive the file format, and every byte of the save
reaches the file. -/
def Done (S : Sodium) (F : Format) (i : Invocation) (fs : FS) : Prop :=
  ∃ v want, access S F i fs = (.ok true, ⟨v, fs⟩) ∧ i.request v.entries = some want ∧ reloaded want = want ∧
    ∃ data, fileBytes S F i.saving.nonce { v with entries := want } = .ok data ∧ i.saving.write.takes data.length

/-- The request asks for what is there. -/
def Idle (S : Sodium) (F : Format) (i : Invocation) (fs : FS) : Prop :=
  ∃ es, decoded S F i fs = some es ∧ i.request es = some es

/-- The vault does not open or unlock, or the save does not come to write. -/
def Untouched (S : Sodium) (F : Format) (i : Invocation) (fs : FS) : Prop :=
  ∀ v want, access S F i fs = (.ok true, ⟨v, fs⟩) → i.request v.entries = some want →
    i.saving.write = .refused ∨ ∀ data, fileBytes S F i.saving.nonce { v with entries := want } ≠ .ok data

/-- When the status is truthful. -/
def Meets (S : Sodium) (F : Format) (i : Invocation) (fs : FS) : Prop :=
  (Returns S F i fs → Done S F i fs ∨ (Idle S F i fs ∧ Untouched S F i fs)) ∧ (¬ Returns S F i fs → ¬ Idle S F i fs)

theorem edit_of_request (h : i.request es = some want) :
    ∃ want', i.edit es = some want' ∧ reloaded want' = reloaded want := by
  have hedit : i.command.edit (generateId i.changing.id) i.changing.now.truncate es = some want := by
    unfold Invocation.request at h
    cases hcmd : i.command with
    | add name username secret tags =>
      rw [hcmd] at h
      dsimp only at h
      split_ifs at h
      exact h
    | _ =>
      rw [hcmd] at h
      exact h
  have htime := i.command.edit_truncate (generateId i.changing.id) i.changing.now es
  rw [hedit, Option.map_some, eq_comm, Option.map_eq_some_iff] at htime
  exact htime

theorem shows_self : Shows S F i fs fs ↔ Idle S F i fs := by
  constructor
  · rintro ⟨es, want, hes, hreq, hwant⟩
    obtain rfl := Option.some.inj (hes.symm.trans hwant)
    exact ⟨es, hes, hreq⟩
  · exact fun ⟨es, hes, hreq⟩ => ⟨es, es, hes, hreq, hes⟩

theorem shows_accessed {fs' : FS} (h : Accessed S F i fs v) (hreq : i.request v.entries = some want) :
    Shows S F i fs fs' ↔ decoded S F i fs' = some want := by
  constructor
  · rintro ⟨es, want', hes, hreq', hwant⟩
    obtain rfl := Option.some.inj (h.decoded.symm.trans hes)
    obtain rfl := Option.some.inj (hreq.symm.trans hreq')
    exact hwant
  · exact fun hwant => ⟨v.entries, want, h.decoded, hreq, hwant⟩

theorem done_accessed (ha : access S F i fs = (.ok true, ⟨v, fs⟩)) (hreq : i.request v.entries = some want) :
    Done S F i fs ↔ reloaded want = want ∧
      ∃ data, fileBytes S F i.saving.nonce { v with entries := want } = .ok data ∧ i.saving.write.takes data.length := by
  constructor
  · rintro ⟨v', want', ha', hreq', hdone⟩
    obtain rfl : v = v' := congrArg Proc.vault (Prod.mk.inj (ha.symm.trans ha')).2
    obtain rfl := Option.some.inj (hreq.symm.trans hreq')
    exact hdone
  · exact fun hdone => ⟨v, want, ha, hreq, hdone⟩

theorem idle_accessed (h : Accessed S F i fs v) (hreq : i.request v.entries = some want) :
    Idle S F i fs ↔ v.entries = want := by
  rw [← shows_self, shows_accessed h hreq, h.decoded, Option.some.injEq]

theorem untouched_accessed (ha : access S F i fs = (.ok true, ⟨v, fs⟩)) (hreq : i.request v.entries = some want) :
    Untouched S F i fs ↔ i.saving.write = .refused ∨
      ∀ data, fileBytes S F i.saving.nonce { v with entries := want } ≠ .ok data := by
  constructor
  · exact fun h => h v want ha hreq
  · intro h v' want' ha' hreq'
    obtain rfl : v = v' := congrArg Proc.vault (Prod.mk.inj (ha.symm.trans ha')).2
    obtain rfl := Option.some.inj (hreq.symm.trans hreq')
    exact h

theorem decoded_torn (hW : F.Whole) {nonce : Nonce} {w : Vault} {b : Bytes} {k : Nat} {fs' : FS}
    (hb : fileBytes S F nonce w = .ok b) (hk : k < b.length) (hfs : fs' i.path = some (b.take k)) :
    decoded S F i fs' = none := by
  obtain ⟨serialized, dataKey, mac, -, -, hb⟩ := fileBytes_ok hb
  cases ha : access S F i.willing fs' with
  | mk r p => cases r with
    | ok opened => cases opened with
      | true =>
        obtain ⟨hdr, d, dk, es, ho, -, -⟩ := access_reads ha
        obtain ⟨-, data, map, -, hdata, hmap, -, -⟩ := open_reads ho.opens
        obtain rfl := Option.some.inj (hfs.symm.trans hdata)
        rw [fileMap_take hW hb hk] at hmap
        cases hmap
      | false => rw [decoded, ha]
    | error f => rw [decoded, ha]

/-- After a successful access it is up to the write. -/
theorem shows_after (hW : F.Whole) (h : Accessed S F i fs v) (ha : access S F i fs = (.ok true, ⟨v, fs⟩)) :
    Shows S F i fs (filesAfter S F i fs) ↔ Done S F i fs ∨ (Idle S F i fs ∧ Untouched S F i fs) := by
  cases hreq : i.request v.entries with
  | none =>
    have hnone : ∀ es want, decoded S F i fs = some es → i.request es ≠ some want := by
      intro es want hes hwant
      obtain rfl := Option.some.inj (h.decoded.symm.trans hes)
      cases hreq.symm.trans hwant
    constructor
    · rintro ⟨es, want, hes, hwant, -⟩
      exact absurd hwant (hnone es want hes)
    · rintro (⟨v', want, ha', hwant, -⟩ | ⟨⟨es, hes, hwant⟩, -⟩)
      · obtain rfl : v = v' := congrArg Proc.vault (Prod.mk.inj (ha.symm.trans ha')).2
        exact absurd hwant (hnone _ want h.decoded)
      · exact absurd hwant (hnone es es hes)
  | some want =>
    obtain ⟨want', hedit, hsame⟩ := edit_of_request hreq
    have hkeyed : Keyed want' := i.command.edit_keyed h.keyed hedit
    -- the times of the request and of the change are written alike
    have hbytes : fileBytes S F i.saving.nonce { v with entries := want' } =
        fileBytes S F i.saving.nonce { v with entries := want } := by
      rw [← fileBytes_reloaded, hsame, fileBytes_reloaded]
    have hfiles : filesAfter S F i fs = match fileBytes S F i.saving.nonce { v with entries := want } with
        | .ok b => (writeFile fs i.path i.saving.write b).2
        | .error _ => fs := by
      rw [filesAfter, ha, ← hbytes, ← h.path]
      dsimp only
      rw [hedit]
      exact save_files h.unlocked
    rw [shows_accessed h hreq, done_accessed ha hreq, idle_accessed h hreq, untouched_accessed ha hreq, hfiles]
    rcases Except.ok_or_error (fileBytes S F i.saving.nonce { v with entries := want }) with ⟨b, hb⟩ | ⟨f, hb⟩
    · rw [hb]
      dsimp only
      rcases writeFile_cases fs i.path i.saving.write b with
        ⟨hio, hw⟩ | ⟨hio, htakes, k, hk, hw⟩ | ⟨hio, htakes, hw⟩ <;> rw [hw]
      · rw [h.decoded, hio]
        simp [ WriteIO.takes]
      · rw [decoded_torn hW hb hk (Function.update_self _ _ _)]
        simp [hio, htakes]
      · rw [h.resaved hkeyed (hbytes.trans hb) (Function.update_self _ _ _), hsame]
        simp [hio, htakes]
    · rw [hb]
      dsimp only
      rw [h.decoded]
      simp

/-- A status tells the truth exactly when every step of the command goes through, or none of them has to. -/
theorem exit_status (hS : S.Correct) (hF : F.Lawful) (hW : F.Whole) (hc : i.command.Confirmed) :
    Truthful S F i fs ↔ Meets S F i fs := by
  by_cases hret : Returns S F i fs
  · have hmeets : Meets S F i fs ↔ Done S F i fs ∨ (Idle S F i fs ∧ Untouched S F i fs) :=
      ⟨fun h => h.1 hret, fun h => ⟨fun _ => h, fun hn => absurd hret hn⟩⟩
    have htrue : Truthful S F i fs ↔ Shows S F i fs (filesAfter S F i fs) := by
      rw [Truthful, main_returns hS hF hc hret]
      simp
    rw [hmeets, htrue]
    obtain ⟨-, b, hb⟩ := hret
    rcases ha : access S F i fs with ⟨r, p⟩
    rw [ha] at hb
    subst hb
    cases b with
    | true =>
      obtain ⟨v, rfl, hacc⟩ := access_true hS hF ha
      exact shows_after hW hacc ha
    | false =>
      have hnot : ∀ v, access S F i fs ≠ (.ok true, ⟨v, fs⟩) := fun v h => by cases ha.symm.trans h
      have hfiles : filesAfter S F i fs = fs := by rw [filesAfter, ha]
      rw [hfiles, shows_self]
      constructor
      · exact fun hidle => .inr ⟨hidle, fun v want h => absurd h (hnot v)⟩
      · rintro (⟨v, want, h, -⟩ | ⟨hidle, -⟩)
        · exact absurd h (hnot v)
        · exact hidle
  · obtain ⟨hstatus, hfs⟩ := main_fails hret
    have hmeets : Meets S F i fs ↔ ¬ Idle S F i fs := ⟨fun h => h.2 hret, fun h => ⟨fun hr => absurd hr hret, fun _ => h⟩⟩
    rw [hmeets, Truthful, hfs, shows_self]
    simp [hstatus]

/-- `add`, in a world where nothing fails. -/
def addCalm : Invocation where
  init := true
  option := some (ascii "vault")
  configured := []
  home := none
  password := ascii "passphrase"
  command := .add (ascii "mail") (ascii "me") (ascii "secret") (ascii "a, b")
  opening := Env.calm 3 .epoch
  unlocking := Env.calm 4 .epoch
  changing := Env.calm 5 .epoch
  saving := Env.calm 6 .epoch

/-- On the file of a vault just created it tells the truth. -/
theorem exit_status_created : Truthful .toy spec addCalm fun _ => some createdFile := by
  have hcheck : (access .toy spec addCalm fun _ => some createdFile).1 = .ok true ∧
      (addCalm.request (access .toy spec addCalm fun _ => some createdFile).2.vault.entries).any fun want =>
        reloaded want = want ∧ (fileBytes .toy spec addCalm.saving.nonce
          { (access .toy spec addCalm fun _ => some createdFile).2.vault with entries := want }).toOption.isSome := by
    decide +kernel
  obtain ⟨htrue, hcheck⟩ := hcheck
  obtain ⟨want, hreq, hcheck⟩ := (Option.any_eq_true _ _).mp hcheck
  obtain ⟨hreload, hbytes⟩ := of_decide_eq_true hcheck
  have ha : access .toy spec addCalm (fun _ => some createdFile) =
      (.ok true, (access .toy spec addCalm fun _ => some createdFile).2) := htrue ▸ Prod.mk.eta.symm
  obtain ⟨v, hv, -⟩ := access_true toy_correct spec_lawful ha
  rw [hv] at ha hreq hbytes
  have hconfirmed : addCalm.command.Confirmed := trivial
  refine (exit_status toy_correct spec_lawful spec_whole hconfirmed).mpr ⟨fun _ => .inl ⟨v, want, ha, hreq, hreload, ?_⟩,
    fun hn => absurd ⟨rfl, true, htrue⟩ hn⟩
  rcases Except.ok_or_error (fileBytes .toy spec addCalm.saving.nonce { v with entries := want }) with ⟨data, hd⟩ | ⟨f, hd⟩
  · exact ⟨data, hd, trivial⟩
  · rw [hd] at hbytes
    cases hbytes

/-- Where there is no vault file the status is 0, and nothing was added. -/
theorem exit_status_noVault : (main .toy spec addCalm fun _ => none).1 = .ok 0 ∧
    ¬ Truthful .toy spec addCalm fun _ => none := by
  have hstatus : (main .toy spec addCalm fun _ => none).1 = .ok 0 := by decide +kernel
  refine ⟨hstatus, fun htrue => ?_⟩
  obtain ⟨es, want, hes, -⟩ := htrue.1.mp hstatus
  have hnone : decoded .toy spec addCalm (fun _ => none) = none := by decide +kernel
  cases hnone.symm.trans hes

end Cli

end Passdoq
