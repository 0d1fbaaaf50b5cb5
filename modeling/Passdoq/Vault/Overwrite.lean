import Passdoq.Vault.World

/-!
# Who may write a vault file

* `Watch` : a world with what `unlock` last returned on each object and which objects created their file;
* `Watch.Guarded` : a call that creates no vault over a file, and an `unlock` that does not stop behind the wrapped key;
* `no_silent_destruction` : in a run of guarded calls a file changes only through an object that unlocked or created it.
-/

namespace Passdoq
open Msgpack Crypto Vault

variable {S : Sodium} {F : Format} {e : Env} {p p' : Proc}

/-- A world with, for each object, whether its most recent `unlock` returned true, and whether it created its file when
there was none. -/
structure Watch where
  world : World
  lastUnlock : Nat → Bool
  creator : Nat → Bool

namespace Watch

def start (fs : FS) : Watch := ⟨.start fs, fun _ => false, fun _ => false⟩

/-- The watch after a call that returned `r` and led to `p`. -/
def next (w : Watch) (c : Call) (r : Except Fault Reply) (p : Proc) : Watch where
  world := w.world.put c.obj p
  lastUnlock := if c.op.isUnlock then Function.update w.lastUnlock c.obj (r = .ok (.bool true)) else w.lastUnlock
  creator := if w.world.fs p.vault.path = none ∧ p.fs p.vault.path ≠ none then Function.update w.creator c.obj true
    else w.creator

def step (S : Sodium) (F : Format) (w : Watch) (c : Call) : Option Watch :=
  match w.world.call S F c with
  | (.error .trap, _) => none
  | (r, p) => some (w.next c r p)

theorem step_eq_some {w w' : Watch} {c : Call} : w.step S F c = some w' ↔
    (w.world.call S F c).1 ≠ .error .trap ∧ w.next c (w.world.call S F c).1 (w.world.call S F c).2 = w' := by
  rw [step]
  rcases w.world.call S F c with ⟨(_ | _) | _, _⟩ <;> simp

/-- The object may write its file. -/
def MayWrite (w : Watch) (i : Nat) : Prop := w.lastUnlock i ∨ w.creator i

/-- A call that changes a file is a `save` or `rekey` of an object that may write it. -/
def Keeps (w : Watch) (c : Call) (w' : Watch) : Prop :=
  ∀ path bytes, w.world.fs path = some bytes → w'.world.fs path ≠ some bytes →
    (c.op = .save ∨ ∃ newDataKey, c.op = .rekey newDataKey) ∧ (w.world.vaults c.obj).path = path ∧ w.MayWrite c.obj

/-- A `create` finds no file and writes one; an `unlock` of an object that did not create its file is not called while the
vault is unlocked, and does not stop in the load behind the wrapped key. -/
def Guarded (S : Sodium) (F : Format) (w : Watch) (c : Call) : Prop :=
  match c.op with
  | .create path passphrase => (w.world.vaults c.obj).state = .uninitialized →
    ∀ derived, deriveMasterKey S c.env.salt c.env.alloc c.env.beyond passphrase [] = .ok derived →
      w.world.fs path = none ∧ c.env.write ≠ .refused ∧
        ∃ b, fileBytes S F c.env.nonce (created S c.env (w.world.proc c.obj) path derived).vault = .ok b
  | .unlock passphrase => w.creator c.obj = true ∨ (w.world.vaults c.obj).state ≠ .unlocked ∧
    ¬ ((w.world.vaults c.obj).state = .locked ∧ UnlockStopsInLoad S F c.env passphrase (w.world.proc c.obj))
  | _ => True

/-- No `unlock` of an object on this path returns true. -/
def NoUnlock (S : Sodium) (F : Format) (path : Bytes) (w : Watch) (c : Call) : Prop :=
  ∀ passphrase, c.op = .unlock passphrase → (w.world.vaults c.obj).path = path →
    (w.world.call S F c).1 ≠ .ok (.bool true)

/-- An unlocked object may write its file, and one that has none may not. -/
structure Inv (w : Watch) : Prop where
  unlocked : ∀ i, (w.world.vaults i).state = .unlocked → w.MayWrite i
  uninitialized : ∀ i, (w.world.vaults i).state = .uninitialized → ¬ w.MayWrite i

theorem inv_start (fs : FS) : Inv (start fs) where
  unlocked _ h := by cases h
  uninitialized _ _ h := by rcases h with h | h <;> cases h

variable {w w' : Watch} {c : Call}

theorem mayWrite_of_ne {r : Except Fault Reply} {i : Nat} (hi : i ≠ c.obj) : (w.next c r p).MayWrite i ↔ w.MayWrite i := by
  unfold MayWrite next
  dsimp only
  split_ifs <;> simp [Function.update_of_ne hi]

theorem vaults_of_ne {r : Except Fault Reply} {i : Nat} (hi : i ≠ c.obj) :
    (w.next c r p).world.vaults i = w.world.vaults i := World.put_of_ne hi

theorem vaults_self {r : Except Fault Reply} : (w.next c r p).world.vaults c.obj = p.vault := World.put_self

/-- An object that may write its file could before, or has unlocked it, or has written it. -/
theorem mayWrite_next {r : Except Fault Reply} (h : (w.next c r p).MayWrite c.obj) : w.MayWrite c.obj ∨
    (c.op.isUnlock = true ∧ r = .ok (.bool true)) ∨ w.world.fs p.vault.path = none := by
  unfold MayWrite next at h
  dsimp only at h
  split_ifs at h with hop hfile hfile
  · exact .inr (.inr hfile.1)
  · rcases h with h | h
    · exact .inr (.inl ⟨hop, by simpa using h⟩)
    · exact .inl (.inr h)
  · exact .inr (.inr hfile.1)
  · exact .inl h

theorem mayWrite_self {r : Except Fault Reply} (hop : c.op.isUnlock = false) : (w.next c r p).MayWrite c.obj ↔
    w.MayWrite c.obj ∨ w.world.fs p.vault.path = none ∧ p.fs p.vault.path ≠ none := by
  unfold MayWrite next
  simp only [hop, Bool.false_eq_true, if_false]
  split_ifs with h <;> simp [h]

theorem mayWrite_quiet {r : Except Fault Reply} (hfs : p.fs = w.world.fs) : (w.next c r p).MayWrite c.obj ↔
    (if c.op.isUnlock then r = .ok (.bool true) else w.lastUnlock c.obj) ∨ w.creator c.obj := by
  unfold MayWrite next
  rw [hfs]
  cases c.op.isUnlock <;> simp

theorem inv_next {r : Except Fault Reply} (h : w.Inv) (hunlocked : p.vault.state = .unlocked → (w.next c r p).MayWrite c.obj)
    (hnone : p.vault.state = .uninitialized → ¬ (w.next c r p).MayWrite c.obj) : (w.next c r p).Inv := by
  constructor <;> intro i <;> by_cases hi : i = c.obj
  · subst hi
    rwa [vaults_self]
  · rw [vaults_of_ne hi, mayWrite_of_ne hi]
    exact h.unlocked i
  · subst hi
    rwa [vaults_self]
  · rw [vaults_of_ne hi, mayWrite_of_ne hi]
    exact h.uninitialized i

theorem keeps_quiet {r : Except Fault Reply} (hfs : p.fs = w.world.fs) : w.Keeps c (w.next c r p) := by
  intro path bytes hbytes hne
  have hsame : (w.next c r p).world.fs path = w.world.fs path := congrFun hfs path
  exact absurd (hsame.trans hbytes) hne

theorem eq_path_of_written (h : Written p p') {path bytes : Bytes} (hbytes : p.fs path = some bytes)
    (hne : p'.fs path ≠ some bytes) : path = p'.vault.path := by
  by_contra hpath
  rcases h with h | ⟨b, h⟩
  · exact hne (h ▸ hbytes)
  · rw [h, Function.update_of_ne hpath] at hne
    exact hne hbytes

/-- A `create` that unlocks the vault has saved it. -/
theorem create_saves {path passphrase : Bytes} (hs : p.vault.state = .uninitialized)
    (hu : (create S F e path passphrase p).2.vault.state = .unlocked) :
    ∃ d, deriveMasterKey S e.salt e.alloc e.beyond passphrase [] = .ok d ∧
      create S F e path passphrase p = save S F e (created S e p path d) := by
  rcases create_cases S F e p path passphrase with ⟨hn, -⟩ | ⟨-, f, -, hc⟩ | ⟨-, d, hd, hc⟩
  · exact absurd hs hn
  · rw [hc] at hu
    cases hs.symm.trans hu
  · exact ⟨d, hd, hc⟩

theorem save_creates {b : Bytes} (hs : p.vault.state = .unlocked) (hb : fileBytes S F e.nonce p.vault = .ok b)
    (hw : e.write ≠ .refused) : (save S F e p).2.fs p.vault.path ≠ none := by
  rw [save_unlocked hs, hb]
  unfold writeFile
  cases hio : e.write with
  | refused => exact absurd hio hw
  | short k good => simp
  | full good => simp

/-- An `unlock` that unlocks the vault and does not stop in the load returns true. -/
theorem unlock_returns_true {passphrase : Bytes} (hs : p.vault.state = .locked) (h : ¬ UnlockStopsInLoad S F e passphrase p)
    (hr : (unlock S F e passphrase p).1 ≠ .error .trap) (hu : (unlock S F e passphrase p).2.vault.state = .unlocked) :
    (unlock S F e passphrase p).1 = .ok true := by
  rcases unlock_cases S F e p passphrase with
    ⟨hn, -⟩ | ⟨-, f, -, hx⟩ | ⟨-, d, hd, ⟨x, -, hx⟩ | ⟨p', hx⟩ | ⟨b, dk, hb, hk, hx⟩⟩
  · exact absurd hs hn
  · rw [hx] at hu
    cases hs.symm.trans hu
  · rw [hx] at hu
    cases hs.symm.trans hu
  · rw [hx] at hr
    exact absurd rfl hr
  · rw [hx] at hr ⊢
    rcases load_cases S F e (p.withKeys d.key dk) with ⟨_, _, _, -, -, -, hl⟩ | ⟨-, r, _, _, hl, hfalse | htrap, -⟩
    · rw [hl]
    · exact absurd ⟨d, b, dk, hd, hb, hk, load_false_iff.mp (by rw [hl, hfalse])⟩ h
    · rw [hl, htrap] at hr
      exact absurd rfl hr

theorem unlock_returns {w : World} {passphrase : Bytes} (hop : c.op = .unlock passphrase) :
    (w.call S F c).1 = .ok (.bool true) ↔ (unlock S F c.env passphrase (w.proc c.obj)).1 = .ok true := by
  rw [World.call, hop, exec, map_bool_fst]

theorem step_inv (h : w.Inv) (hg : w.Guarded S F c) (hstep : w.step S F c = some w') : w'.Inv ∧ w.Keeps c w' := by
  obtain ⟨hr, rfl⟩ := step_eq_some.mp hstep
  obtain ⟨i, e, op⟩ := c
  have hmoves : Moves (w.world.proc i) op (w.world.call S F ⟨i, e, op⟩).2 := (exec_effect hr).moves
  cases hmoves with
  | quiet hpath hstate hfs =>
    refine ⟨inv_next h (fun hu => ?_) (fun hn hmay => ?_), keeps_quiet hfs⟩
    · have hbefore : (w.world.vaults i).state = .unlocked := hstate.symm.trans hu
      rw [mayWrite_quiet hfs]
      by_cases hop : op.isUnlock = true
      · obtain ⟨passphrase, rfl⟩ := Op.isUnlock_iff.mp hop
        exact .inr (hg.resolve_right fun hno => hno.1 hbefore)
      · rw [if_neg hop]
        exact h.unlocked i hbefore
    · have hbefore : (w.world.vaults i).state = .uninitialized := hstate.symm.trans hn
      rw [mayWrite_quiet hfs] at hmay
      by_cases hop : op.isUnlock = true
      · obtain ⟨passphrase, rfl⟩ := Op.isUnlock_iff.mp hop
        rcases hmay with htrue | hcreator
        · have hlocked := unlock_true ((unlock_returns rfl).mp htrue)
          cases hbefore.symm.trans hlocked
        · exact h.uninitialized i hbefore (.inr hcreator)
      · rw [if_neg hop] at hmay
        exact h.uninitialized i hbefore hmay
  | lock hs hpath hstate hfs =>
    refine ⟨inv_next h (fun hu => ?_) (fun hn => ?_), keeps_quiet hfs⟩
    · cases hstate.symm.trans hu
    · cases hstate.symm.trans hn
  | write hop hs hpath hstate hfs =>
    have hmay : w.MayWrite i := h.unlocked i hs
    refine ⟨inv_next h (fun _ => ?_) (fun hn => ?_), fun path bytes hbytes hne => ⟨hop, ?_, hmay⟩⟩
    · have hnot : op.isUnlock = false := by rcases hop with rfl | ⟨k, rfl⟩ <;> rfl
      exact (mayWrite_self hnot).mpr (.inl hmay)
    · cases hstate.symm.trans hn
    · rw [eq_path_of_written hfs hbytes hne, hpath]
      rfl
  | aim hop hs hstate hfs =>
    refine ⟨inv_next h (fun hu => absurd hu hstate) (fun _ hmay => ?_), keeps_quiet hfs⟩
    rw [mayWrite_quiet hfs, hop] at hmay
    exact h.uninitialized i hs hmay
  | @create path passphrase _ hs hstate hpath hfs =>
    have hcreate : (w.world.call S F ⟨i, e, .create path passphrase⟩).2 = (create S F e path passphrase (w.world.proc i)).2 :=
      Eff.map_apply_snd _ _ _
    obtain ⟨d, hd, hsaves⟩ := create_saves (e := e) hs (hcreate ▸ hstate)
    obtain ⟨hnone, hopens, b, hb⟩ := hg hs d hd
    have hfile : (w.world.call S F ⟨i, e, .create path passphrase⟩).2.fs path ≠ none := by
      rw [hcreate, hsaves]
      exact save_creates rfl hb hopens
    refine ⟨inv_next h (fun _ => ?_) (fun hn => ?_), fun path' bytes hbytes hne => ?_⟩
    · refine (mayWrite_self rfl).mpr (.inr ?_)
      rw [hpath]
      exact ⟨hnone, hfile⟩
    · cases hstate.symm.trans hn
    · rw [eq_path_of_written hfs hbytes hne, hpath, hnone] at hbytes
      cases hbytes
  | @unlock passphrase _ hs hpath hstate hfs =>
    have hunlock : (w.world.call S F ⟨i, e, .unlock passphrase⟩).2 = (unlock S F e passphrase (w.world.proc i)).2 :=
      Eff.map_apply_snd _ _ _
    have hr : (unlock S F e passphrase (w.world.proc i)).1 ≠ .error .trap := fun ht =>
      hr (by rwa [World.call, exec, Eff.map_apply_error])
    refine ⟨inv_next h (fun _ => ?_) (fun hn => ?_), keeps_quiet hfs⟩
    · rw [mayWrite_quiet hfs]
      rcases hg with hcreator | ⟨-, hno⟩
      · exact .inr hcreator
      · have htrue := unlock_returns_true hs (fun hstops => hno ⟨hs, hstops⟩) hr (hunlock ▸ hstate)
        exact .inl ((unlock_returns rfl).mpr htrue)
    · cases hstate.symm.trans hn

/-! ## Along a run -/

/-- The path still holds these bytes, and no object on it may write them. -/
def Untouched (path bytes : Bytes) (w : Watch) : Prop :=
  w.world.fs path = some bytes ∧ ∀ i, (w.world.vaults i).path = path → ¬ w.MayWrite i

theorem step_untouched {path bytes : Bytes} (h : w.Inv) (hkeeps : w.Keeps c w') (hno : w.NoUnlock S F path c)
    (hstep : w.step S F c = some w') (hu : w.Untouched path bytes) : w'.Untouched path bytes := by
  obtain ⟨hbytes, hnone⟩ := hu
  have hsame : w'.world.fs path = some bytes := by
    by_contra hne
    obtain ⟨-, hpath, hmay⟩ := hkeeps path bytes hbytes hne
    exact hnone c.obj hpath hmay
  refine ⟨hsame, fun i hpath hmay => ?_⟩
  obtain ⟨hr, rfl⟩ := step_eq_some.mp hstep
  by_cases hi : i = c.obj
  · subst hi
    rw [vaults_self] at hpath
    have hmoves : Moves (w.world.proc c.obj) c.op (w.world.call S F c).2 := (exec_effect hr).moves
    rcases mayWrite_next hmay with hmay | ⟨hop, htrue⟩ | hfile
    · by_cases hs : (w.world.vaults c.obj).state = .uninitialized
      · exact h.uninitialized c.obj hs hmay
      · exact hnone c.obj ((hmoves.path_eq hs).symm.trans hpath) hmay
    · obtain ⟨passphrase, hop⟩ := Op.isUnlock_iff.mp hop
      have hlocked : (w.world.vaults c.obj).state = .locked := unlock_true ((unlock_returns hop).mp htrue)
      have hne : (w.world.proc c.obj).vault.state ≠ .uninitialized := fun hn => by cases hlocked.symm.trans hn
      exact hno passphrase hop ((hmoves.path_eq hne).symm.trans hpath) htrue
    · rw [hpath, hbytes] at hfile
      cases hfile
  · rw [vaults_of_ne hi] at hpath
    rw [mayWrite_of_ne hi] at hmay
    exact hnone i hpath hmay

end Watch

/-- In a run of guarded calls on any number of objects, with any failures of reads and writes, a file changes only by a
`save` or `rekey` of an object whose most recent `unlock` returned true or that created the file; so a file that no
`unlock` opened stays what it was. -/
theorem no_silent_destruction {fs : FS} {cs : List Call} {w : Watch} (hrun : runs (Watch.step S F) (.start fs) cs = some w)
    (hg : Along (Watch.step S F) (Watch.Guarded S F) (.start fs) cs) :
    (∀ c w', w.Guarded S F c → w.step S F c = some w' → w.Keeps c w') ∧
      ∀ path bytes, fs path = some bytes → Along (Watch.step S F) (Watch.NoUnlock S F path) (.start fs) cs →
        w.world.fs path = some bytes := by
  have hinv : w.Inv := runs_invariant (I := Watch.Inv) (fun _ _ _ hI hg hs => (Watch.step_inv hI hg hs).1)
    (Watch.inv_start fs) hg hrun
  refine ⟨fun c w' hg hs => (Watch.step_inv hinv hg hs).2, fun path bytes hbytes hno => ?_⟩
  have hstart : (Watch.start fs).Untouched path bytes := ⟨hbytes, fun i _ => (Watch.inv_start fs).uninitialized i rfl⟩
  have hboth : w.Inv ∧ w.Untouched path bytes := by
    refine runs_invariant (I := fun w => w.Inv ∧ w.Untouched path bytes) (fun w c w' hI hC hs => ?_)
      ⟨Watch.inv_start fs, hstart⟩ (hg.and hno) hrun
    obtain ⟨hinv', hkeeps⟩ := Watch.step_inv hI.1 hC.1 hs
    exact ⟨hinv', Watch.step_untouched hI.1 hkeeps hC.2 hs hI.2⟩
  exact hboth.2.1

/-- The object 0 creates a vault. -/
def createCall : Call := ⟨0, Env.calm 7 .epoch, .create (ascii "vault") (ascii "passphrase")⟩

theorem no_silent_destruction_created : ∃ w w', runs (Watch.step .toy spec) (.start fun _ => none) [createCall] = some w ∧
    w.step .toy spec ⟨0, Env.calm 8 .epoch, .save⟩ = some w' ∧ w.world.fs (ascii "vault") ≠ w'.world.fs (ascii "vault") ∧
    w.Keeps ⟨0, Env.calm 8 .epoch, .save⟩ w' := by
  have hcheck : (runs (Watch.step .toy spec) (.start fun _ => none) [createCall]).any fun w =>
      (w.step .toy spec ⟨0, Env.calm 8 .epoch, .save⟩).any fun w' =>
        w.world.fs (ascii "vault") ≠ w'.world.fs (ascii "vault") := by
    decide +kernel
  obtain ⟨w, hrun, hcheck⟩ := (Option.any_eq_true _ _).mp hcheck
  obtain ⟨w', hstep, hne⟩ := (Option.any_eq_true _ _).mp hcheck
  have hguard : (Watch.start fun _ => none).Guarded .toy spec createCall := by
    intro _ d hd
    have hfile : ((deriveMasterKey .toy (Env.calm 7 .epoch).salt true none (ascii "passphrase") []).toOption.bind fun d =>
        (fileBytes .toy spec (Env.calm 7 .epoch).nonce (created .toy (Env.calm 7 .epoch) ⟨.fresh, fun _ => none⟩
          (ascii "vault") d).vault).toOption).isSome := by
      decide +kernel
    have hd' : deriveMasterKey .toy (Env.calm 7 .epoch).salt true none (ascii "passphrase") [] = .ok d := hd
    rw [hd'] at hfile
    refine ⟨rfl, by decide, ?_⟩
    rcases Except.ok_or_error (fileBytes .toy spec (Env.calm 7 .epoch).nonce (created .toy (Env.calm 7 .epoch)
      ⟨.fresh, fun _ => none⟩ (ascii "vault") d).vault) with hb | ⟨f, hf⟩
    · exact hb
    · simp [Except.toOption, hf] at hfile
  refine ⟨w, w', hrun, hstep, of_decide_eq_true hne, ?_⟩
  exact (no_silent_destruction hrun ⟨hguard, fun _ _ => trivial⟩).1 _ _ trivial hstep

/-- A vault with an entry is saved; another object opens it, and its `unlock` fails on a read error. -/
def brokenUnlock : List Call := [createCall,
  ⟨0, Env.calm 7 .epoch, .addEntry ⟨[], ascii "mail", ascii "me", ascii "secret", ∅, [], .epoch, .epoch⟩⟩,
  ⟨0, Env.calm 7 .epoch, .save⟩, ⟨1, Env.calm 8 .epoch, .open (ascii "vault")⟩,
  ⟨1, { Env.calm 8 .epoch with read := .broken }, .unlock (ascii "passphrase")⟩]

/-- Its `save` then replaces the file, although no `unlock` returned true. -/
theorem no_silent_destruction_broken : ∃ w w', runs (Watch.step .toy spec) (.start fun _ => none) brokenUnlock = some w ∧
    w.step .toy spec ⟨1, Env.calm 8 .epoch, .save⟩ = some w' ∧ ¬ w.Keeps ⟨1, Env.calm 8 .epoch, .save⟩ w' := by
  have hcheck : (runs (Watch.step .toy spec) (.start fun _ => none) brokenUnlock).any fun w =>
      (w.step .toy spec ⟨1, Env.calm 8 .epoch, .save⟩).any fun w' => (w.world.fs (ascii "vault")).isSome ∧
        w'.world.fs (ascii "vault") ≠ w.world.fs (ascii "vault") ∧ w.lastUnlock 1 = false ∧ w.creator 1 = false := by
    decide +kernel
  obtain ⟨w, hrun, hcheck⟩ := (Option.any_eq_true _ _).mp hcheck
  obtain ⟨w', hstep, hcheck⟩ := (Option.any_eq_true _ _).mp hcheck
  obtain ⟨hsome, hne, hlast, hcreator⟩ := of_decide_eq_true hcheck
  obtain ⟨bytes, hbytes⟩ := Option.isSome_iff_exists.mp hsome
  refine ⟨w, w', hrun, hstep, fun hkeeps => ?_⟩
  obtain ⟨-, -, hmay⟩ := hkeeps (ascii "vault") bytes hbytes (hbytes ▸ hne)
  rcases hmay with hmay | hmay
  · rw [hlast] at hmay
    cases hmay
  · rw [hcreator] at hmay
    cases hmay

end Passdoq
