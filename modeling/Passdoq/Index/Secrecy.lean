import Passdoq.Index.Mirror
import Passdoq.Index.Search
import Passdoq.Vault.Secrecy
import Passdoq.Vault.World
import Mathlib

/-!
# What is seen does not depend on the secrets

* `System`, `Action`, `System.step` : vault objects, their files and an index, and one call on them;
* `System.run` : what is seen of a run whose calls may use what earlier calls returned;
* `run_alike` : two runs whose calls are the same but for the secrets look the same, as long as their saves end the same way;
* `secrets_unseen`, `secrets_unseen_of_lengths`.
-/

namespace Passdoq
open Msgpack Crypto Vault

/-! ## Calls on the index -/

/-- A call of the search engine, or of `exists`. -/
inductive Query (X : Xapian)
  | existsIndex
  | open
  | close
  | search (query : X.Query) (maxResults : Nat)
  | searchString (queryString : Bytes) (maxResults : Nat)
  | searchByTag (tag : Bytes) (maxResults : Nat)
  | searchMetadata (key value : Bytes) (maxResults : Nat)
  | suggest (start : Bytes) (maxSuggestions : Nat)

inductive Found
  | unit
  | bool (b : Bool)
  | results (l : List SearchResult)
  | suggestions (l : List Bytes)
  deriving DecidableEq

variable {X : Xapian}

/-- One call of `q`. -/
def SearchEngine.exec (e : IndexEnv) : Query X → IndexAct X Found
  | .existsIndex => Found.bool <$> IndexManager.existsIndex e
  | .open => Found.bool <$> SearchEngine.open e
  | .close => (fun _ => Found.unit) <$> SearchEngine.close
  | .search query maxResults => Found.results <$> SearchEngine.search e query maxResults
  | .searchString queryString maxResults => Found.results <$> SearchEngine.searchString e queryString maxResults
  | .searchByTag tag maxResults => Found.results <$> SearchEngine.searchByTag e tag maxResults
  | .searchMetadata key value maxResults => Found.results <$> SearchEngine.searchMetadata e key value maxResults
  | .suggest start maxSuggestions => Found.suggestions <$> SearchEngine.suggest e start maxSuggestions

def IndexOp.veil (g : Bytes → Bytes) : IndexOp → IndexOp
  | .indexEntry entry => .indexEntry (entry.veil g)
  | .updateEntry entry => .updateEntry (entry.veil g)
  | .rebuildIndex entries => .rebuildIndex (entries.map (Entry.veil g))
  | op => op

section Blind

open IndexManager

variable {g : Bytes → Bytes}

theorem entryToDocument_veil (entry : Entry) : entryToDocument (entry.veil g) = entryToDocument entry := rfl

theorem addEntries_veil (e : IndexEnv) (entries : List Entry) (i : Nat) :
    addEntries (X := X) e i (entries.map (Entry.veil g)) = addEntries e i entries := by
  induction entries generalizing i with
  | nil => rfl
  | cons entry entries ih =>
    rw [List.map_cons, addEntries, addEntries, ih, entryToDocument_veil]

/-- The manager looks at no secret. -/
theorem IndexManager.exec_veil (e : IndexEnv) (op : IndexOp) :
    IndexManager.exec (X := X) e (op.veil g) = IndexManager.exec e op := by
  cases op with
  | rebuildIndex entries =>
    simp only [IndexOp.veil, IndexManager.exec, rebuildIndex, addEntries_veil]
  | _ => rfl

end Blind

/-! ## The system -/

/-- Vault objects over their files, and an index. -/
structure System (X : Xapian) where
  world : World
  index : Index X

/-- A call on a vault object, the index manager or the search engine, or another writer putting `contents` at `path`. -/
inductive Action (X : Xapian)
  | vault (c : Call)
  | index (e : IndexEnv) (op : IndexOp)
  | query (e : IndexEnv) (q : Query X)
  | external (path : Bytes) (contents : Option Bytes)

inductive Output
  | vault (r : Except Fault Reply)
  | index (r : Except IndexFault Bool)
  | query (r : Except IndexFault Found)
  | external
  deriving DecidableEq

/-- The process was stopped by a bad access. -/
def Output.stops : Output → Bool
  | .vault (.error .trap) | .index (.error .trap) | .query (.error .trap) => true
  | _ => false

/-- What is called next, from what was returned so far. -/
abbrev Caller (X : Xapian) := List Output → Action X

/-- What is seen of the system: the objects with their secrets seen through some function, the headers of the files, the
index. -/
structure Shown (X : Xapian) where
  vaults : Nat → Vault
  headers : Bytes → Option (Except Fault VaultHeader)
  index : Index X

variable (S : Sodium) (F : Format) (g : Bytes → Bytes)

def Action.veil : Action X → Action X
  | .vault c => .vault { c with op := c.op.veil g }
  | .index e op => .index e (op.veil g)
  | a => a

def Output.veil : Output → Output
  | .vault r => .vault (r.map (Reply.veil g))
  | out => out

/-- Told the same but for the secrets, the two call the same but for the secrets. -/
def Caller.Alike (call call' : Caller X) : Prop :=
  ∀ past past', past.map (Output.veil g) = past'.map (Output.veil g) → (call past).veil g = (call' past').veil g

namespace System

def start (X : Xapian) (fs : FS) : System X := ⟨.start fs, .fresh X⟩

/-- What a call returns, and the system after it. -/
def step (s : System X) : Action X → Output × System X
  | .vault c => (.vault (s.world.call S F c).1, { s with world := s.world.put c.obj (s.world.call S F c).2 })
  | .index e op => (.index (IndexManager.exec e op s.index).1, { s with index := (IndexManager.exec e op s.index).2 })
  | .query e q => (.query (SearchEngine.exec e q s.index).1, { s with index := (SearchEngine.exec e q s.index).2 })
  | .external path contents => (.external, { s with world.fs := Function.update s.world.fs path contents })

def shown (s : System X) : Shown X :=
  ⟨fun i => (s.world.vaults i).veil g, fun path => (s.world.fs path).map (fileHeader F), s.index⟩

/-- What is seen of each step of a run, until the process is stopped. -/
def run (s : System X) (past : List Output) : List (Caller X) → List (Output × Shown X)
  | [] => []
  | call :: calls =>
    let (out, s') := s.step S F (call past)
    (out.veil g, s'.shown F g) :: if out.stops then [] else s'.run (past ++ [out]) calls

end System

/-- The saves of a call on two systems end the same way. -/
def Action.SavesAgree (s s' : System X) : Action X → Prop
  | .vault c => c.op.SavesAgree S F c.env (s.world.proc c.obj) (s'.world.proc c.obj)
  | _ => True

/-- All saves of two runs end the same way in both. -/
def SavesAgreeAlong (s s' : System X) (past past' : List Output) : List (Caller X) → List (Caller X) → Prop
  | call :: calls, call' :: calls' => (call past).SavesAgree S F s s' ∧
    ((s.step S F (call past)).1.stops = false →
      SavesAgreeAlong (s.step S F (call past)).2 (s'.step S F (call' past')).2 (past ++ [(s.step S F (call past)).1])
        (past' ++ [(s'.step S F (call' past')).1]) calls calls')
  | _, _ => True

instance Action.decidableSavesAgree (s s' : System X) : (a : Action X) → Decidable (a.SavesAgree S F s s')
  | .vault c => Op.decidableSavesAgree S F c.env (s.world.proc c.obj) (s'.world.proc c.obj) c.op
  | .index _ _ | .query _ _ | .external _ _ => isTrue trivial

instance SavesAgreeAlong.decidable (s s' : System X) (past past' : List Output) :
    (calls calls' : List (Caller X)) → Decidable (SavesAgreeAlong S F s s' past past' calls calls')
  | call :: calls, call' :: calls' =>
    have := decidable (s.step S F (call past)).2 (s'.step S F (call' past')).2
      (past ++ [(s.step S F (call past)).1]) (past' ++ [(s'.step S F (call' past')).1]) calls calls'
    inferInstanceAs (Decidable ((call past).SavesAgree S F s s' ∧
      ((s.step S F (call past)).1.stops = false → SavesAgreeAlong S F _ _ _ _ calls calls')))
  | [], _ => isTrue trivial
  | _ :: _, [] => isTrue trivial

/-! ## Two runs -/

section TwoRuns

variable {S F g} {s s' : System X} {a a' : Action X}

theorem Output.stops_veil (out : Output) : (out.veil g).stops = out.stops := by
  cases out with
  | vault r =>
    cases r with
    | error f => rfl
    | ok reply => rfl
  | _ => rfl

/-- Systems that are the same but for the secrets. -/
structure System.Alike (S : Sodium) (F : Format) (g : Bytes → Bytes) (s s' : System X) : Prop where
  vaults : ∀ i, Vault.Alike g (s.world.vaults i) (s'.world.vaults i)
  files : ∀ path, FilesAlike S F g (s.world.fs path) (s'.world.fs path)
  index : s.index = s'.index

/-- The objects of the system keep their invariants. -/
def System.Sound (s : System X) : Prop := ∀ i, Vault.Sound (s.world.vaults i)

theorem System.Alike.shown (hF : F.Lawful) (hW : F.Whole) (h : s.Alike S F g s') : s.shown F g = s'.shown F g := by
  have hvaults : (fun i => (s.world.vaults i).veil g) = fun i => (s'.world.vaults i).veil g := by
    funext i
    exact (h.vaults i).veil_eq
  have hheaders : (fun path => (s.world.fs path).map (fileHeader F)) = fun path => (s'.world.fs path).map (fileHeader F) := by
    funext path
    exact (h.files path).header hF hW
  unfold System.shown
  rw [hvaults, hheaders, h.index]

theorem System.Alike.proc (h : s.Alike S F g s') (i : Nat) : (s.world.proc i).Alike S F g (s'.world.proc i) :=
  ⟨h.vaults i, h.files⟩

theorem System.Alike.put (h : s.Alike S F g s') (i : Nat) {p p' : Proc} (hp : p.Alike S F g p') :
    System.Alike S F g { s with world := s.world.put i p } { s' with world := s'.world.put i p' } := by
  refine ⟨fun j => ?_, hp.files, h.index⟩
  by_cases hj : j = i
  · subst hj
    show Vault.Alike g ((s.world.put j p).vaults j) ((s'.world.put j p').vaults j)
    rw [World.put_self, World.put_self]
    exact hp.vault
  · show Vault.Alike g ((s.world.put i p).vaults j) ((s'.world.put i p').vaults j)
    rw [World.put_of_ne hj, World.put_of_ne hj]
    exact h.vaults j

/-- One call on each of two systems. -/
theorem step_alike (hS : S.Correct) (hU : S.Seals) (hF : F.Lawful) (hW : F.Whole) (h : s.Alike S F g s')
    (hs : s.Sound) (hs' : s'.Sound) (ha : a.veil g = a'.veil g) (hagree : a.SavesAgree S F s s') :
    (s.step S F a).1.veil g = (s'.step S F a').1.veil g ∧ (s.step S F a).2.Alike S F g (s'.step S F a').2 := by
  cases a with
  | vault c =>
    cases a' with
    | vault c' =>
      obtain ⟨obj, e, op⟩ := c
      obtain ⟨obj', e', op'⟩ := c'
      simp only [Action.veil, Action.vault.injEq, Call.mk.injEq] at ha
      obtain ⟨rfl, rfl, hop⟩ := ha
      have hend := exec_alike hS hU hF hW (h.proc obj) (hs obj) (hs' obj) hop hagree
      exact ⟨congrArg Output.vault hend.1, h.put obj hend.2⟩
    | _ => cases ha
  | index e op =>
    cases a' with
    | index e' op' =>
      simp only [Action.veil, Action.index.injEq] at ha
      obtain ⟨rfl, hop⟩ := ha
      have hexec : IndexManager.exec (X := X) e op = IndexManager.exec e op' := by
        rw [← IndexManager.exec_veil (g := g), hop, IndexManager.exec_veil]
      rw [System.step, System.step, hexec, h.index]
      exact ⟨rfl, h.vaults, h.files, rfl⟩
    | _ => cases ha
  | query e q =>
    cases a' with
    | query e' q' =>
      cases ha
      rw [System.step, System.step, h.index]
      exact ⟨rfl, h.vaults, h.files, rfl⟩
    | _ => cases ha
  | external path contents =>
    cases a' with
    | external path' contents' =>
      cases ha
      exact ⟨rfl, h.vaults, files_update h.files (.same contents), h.index⟩
    | _ => cases ha

theorem step_sound (hs : s.Sound) (hstops : (s.step S F a).1.stops = false) : (s.step S F a).2.Sound := by
  cases a with
  | vault c =>
    have hr : (exec S F c.env c.op (s.world.proc c.obj)).1 ≠ .error .trap := by
      intro htrap
      have hout : (s.step S F (.vault c)).1 = .vault (.error .trap) := congrArg Output.vault htrap
      rw [hout] at hstops
      cases hstops
    intro i
    by_cases hi : i = c.obj
    · subst hi
      show Vault.Sound ((s.world.put c.obj (s.world.call S F c).2).vaults c.obj)
      rw [World.put_self]
      exact (exec_effect hr).sound (hs c.obj)
    · show Vault.Sound ((s.world.put c.obj (s.world.call S F c).2).vaults i)
      rw [World.put_of_ne hi]
      exact hs i
  | _ => exact hs

theorem run_alike (hS : S.Correct) (hU : S.Seals) (hF : F.Lawful) (hW : F.Whole) {calls calls' : List (Caller X)}
    {past past' : List Output} (hcalls : List.Forall₂ (Caller.Alike g) calls calls') (h : s.Alike S F g s')
    (hs : s.Sound) (hs' : s'.Sound) (hpast : past.map (Output.veil g) = past'.map (Output.veil g))
    (hagree : SavesAgreeAlong S F s s' past past' calls calls') :
    s.run S F g past calls = s'.run S F g past' calls' := by
  induction hcalls generalizing s s' past past' with
  | nil => rfl
  | @cons call call' calls calls' hcall _ ih =>
    obtain ⟨hout, halike⟩ := step_alike hS hU hF hW h hs hs' (hcall past past' hpast) hagree.1
    have hstops : (s'.step S F (call' past')).1.stops = (s.step S F (call past)).1.stops := by
      rw [← Output.stops_veil (g := g), ← hout, Output.stops_veil]
    unfold System.run
    dsimp only
    rw [hout, halike.shown hF hW, hstops]
    congr 1
    split_ifs with hstop
    · rfl
    · have hgoes : (s.step S F (call past)).1.stops = false := Bool.eq_false_iff.mpr hstop
      refine ih halike (step_sound hs hgoes) (step_sound hs' (hstops.trans hgoes)) ?_ (hagree.2 hgoes)
      rw [List.map_append, List.map_append, hpast, List.map_singleton, List.map_singleton, hout]

theorem sound_start (fs : FS) : (System.start X fs).Sound := fun _ => ⟨keyed_empty, lockInv_fresh⟩

theorem alike_start (fs : FS) : (System.start X fs).Alike S F g (System.start X fs) :=
  ⟨fun _ => ⟨rfl, rfl, rfl, rfl, rfl, rfl⟩, fun path => .same (fs path), rfl⟩

/-- Runs from the start, with calls that are the same but for the secrets, show the same results, vault states, other fields
of the entries, plaintext headers and documents, as long as each of their saves ends the same way in both. -/
theorem secrets_unseen (hS : S.Correct) (hU : S.Seals) (hF : F.Lawful) (hW : F.Whole) (fs : FS)
    {calls calls' : List (Caller X)} (hcalls : List.Forall₂ (Caller.Alike hidden) calls calls')
    (hagree : SavesAgreeAlong S F (.start X fs) (.start X fs) [] [] calls calls') :
    (System.start X fs).run S F hidden [] calls = (System.start X fs).run S F hidden [] calls' :=
  run_alike hS hU hF hW hcalls (alike_start fs) (sound_start fs) (sound_start fs) rfl hagree

/-- A call on the first object in which nothing fails. -/
def Op.caller (op : Op) : Caller X := fun _ => .vault ⟨0, .calm 7 .epoch, op⟩

def lastEntries (past : List Output) : List Entry :=
  match past.getLast? with
  | some (.vault (.ok (.entries l))) => l
  | _ => []

/-- An entry with the secret is added and saved. -/
def savingCalls (secret : Bytes) : List (Caller toyXapian) :=
  [Op.caller (.create (ascii "vault") (ascii "passphrase")),
    Op.caller (.addEntry { githubEntry with secret := secret }), Op.caller .save]

/-- The vault is locked, and its entries loaded, listed, indexed and searched. -/
def indexingCalls : List (Caller toyXapian) :=
  [Op.caller .lock, Op.caller (.unlock (ascii "passphrase")), Op.caller .listEntries,
    fun past => .index .calm (.rebuildIndex (lastEntries past)), fun _ => .query .calm .open,
    fun _ => .query .calm (.searchByTag (ascii "work") 10)]

theorem Caller.alike_const (a : Action X) : Caller.Alike g (fun _ => a) fun _ => a := fun _ _ _ => rfl

theorem savingCalls_alike (secret secret' : Bytes) :
    List.Forall₂ (Caller.Alike hidden) (savingCalls secret) (savingCalls secret') := by
  have hadd : Caller.Alike hidden (Op.caller (.addEntry { githubEntry with secret := secret }) : Caller toyXapian)
      (Op.caller (.addEntry { githubEntry with secret := secret' })) := fun _ _ _ => rfl
  exact .cons (Caller.alike_const _) (.cons hadd (.cons (Caller.alike_const _) .nil))

theorem lastEntries_veil (past : List Output) :
    (lastEntries past).map (Entry.veil g) = lastEntries (past.map (Output.veil g)) := by
  unfold lastEntries
  rw [List.getLast?_map]
  rcases past.getLast? with _ | out
  · rfl
  · rcases out with (_ | reply) | _ | _ | _
    · rfl
    · cases reply <;> rfl
    · rfl
    · rfl
    · rfl

theorem indexingCalls_alike : List.Forall₂ (Caller.Alike hidden) indexingCalls indexingCalls := by
  have hrebuild : Caller.Alike hidden (fun past => .index .calm (.rebuildIndex (lastEntries past)) : Caller toyXapian)
      fun past => .index .calm (.rebuildIndex (lastEntries past)) := by
    intro past past' hpast
    show Action.index IndexEnv.calm (.rebuildIndex ((lastEntries past).map (Entry.veil hidden))) =
      Action.index IndexEnv.calm (.rebuildIndex ((lastEntries past').map (Entry.veil hidden)))
    rw [lastEntries_veil, lastEntries_veil, hpast]
  exact .cons (Caller.alike_const _) (.cons (Caller.alike_const _) (.cons (Caller.alike_const _) (.cons hrebuild
    (.cons (Caller.alike_const _) (.cons (Caller.alike_const _) .nil)))))

/-- Two runs that end with the entry found by its tag. -/
theorem secrets_unseen_found :
    (System.start toyXapian fun _ => none).run .toy spec hidden [] (savingCalls (ascii "hunter2") ++ indexingCalls) =
      (System.start toyXapian fun _ => none).run .toy spec hidden [] (savingCalls (ascii "correct horse") ++ indexingCalls) ∧
    ∃ result, (((System.start toyXapian fun _ => none).run .toy spec hidden []
      (savingCalls (ascii "hunter2") ++ indexingCalls)).map Prod.fst).getLast? = some (.query (.ok (.results [result]))) :=
  ⟨secrets_unseen toy_correct toy_seals spec_lawful spec_whole _ (List.rel_append (savingCalls_alike _ _) indexingCalls_alike)
    (by decide +kernel), ⟨generateId (Block.const 16 7), 1, generateId (Block.const 16 7)⟩, by decide +kernel⟩

def createdProc : Proc :=
  (exec .toy spec (.calm 7 .epoch) (.create (ascii "vault") (ascii "passphrase")) ⟨.fresh, fun _ => none⟩).2

theorem exec_created : (exec .toy spec (.calm 7 .epoch) (.create (ascii "vault") (ascii "passphrase"))
    ⟨.fresh, fun _ => none⟩).1 = .ok (.bool true) ∧ createdProc.vault.state = .unlocked ∧ createdProc.vault.dataKey.isSome := by
  decide +kernel

theorem savingCalls_small : ((System.start toyXapian fun _ => none).run .toy spec hidden [] (savingCalls [])).map Prod.fst =
    [.vault (.ok (.bool true)), .vault (.ok (.id (generateId (Block.const 16 7)))), .vault (.ok (.bool true))] := by
  decide +kernel

theorem savingCalls_large {secret : Bytes} (h : 2 ^ 32 ≤ secret.length) :
    ((System.start toyXapian fun _ => none).run .toy spec hidden [] (savingCalls secret)).map Prod.fst =
      [.vault (.ok (.bool true)), .vault (.ok (.id (generateId (Block.const 16 7)))), .vault (.ok (.bool false))] := by
  obtain ⟨hcreated, hs, hk⟩ := exec_created
  have hcreate : World.call .toy spec (System.start toyXapian fun _ => none).world
      ⟨0, .calm 7 .epoch, .create (ascii "vault") (ascii "passphrase")⟩ = (.ok (.bool true), createdProc) :=
    Prod.ext hcreated rfl
  let added := createdProc.assign createdProc.vault.header (createdProc.vault.entries.insert (generateId (Block.const 16 7))
    { githubEntry with id := generateId (Block.const 16 7), secret := secret, created := .epoch, modified := .epoch })
  have hadd : ∀ w : World, World.call .toy spec (w.put 0 createdProc)
      ⟨0, .calm 7 .epoch, .addEntry { githubEntry with secret := secret }⟩ =
        (.ok (.id (generateId (Block.const 16 7))), added) := by
    intro w
    rw [World.call, World.proc_put]
    have hop : (Op.addEntry { githubEntry with secret := secret }).onEntries := rfl
    exact exec_onEntries hop hs (.calm 7 .epoch)
  have hsave : ∀ w : World, (World.call .toy spec (w.put 0 added) ⟨0, .calm 7 .epoch, .save⟩).1 = .ok (.bool false) := by
    intro w
    rw [World.call, World.proc_put]
    exact map_bool_fst.mpr (save_large hs hk (OrdMap.find?_insert_self _ _ _) h)
  simp only [savingCalls, System.run, Op.caller, System.step, hcreate, hadd, hsave]
  rfl

/-- A secret of 4 GiB is not saved, an empty one is. -/
theorem secrets_unseen_large :
    List.Forall₂ (Caller.Alike hidden) (savingCalls []) (savingCalls (List.replicate (2 ^ 32) 0)) ∧
    (System.start toyXapian fun _ => none).run .toy spec hidden [] (savingCalls []) ≠
      (System.start toyXapian fun _ => none).run .toy spec hidden [] (savingCalls (List.replicate (2 ^ 32) 0)) := by
  refine ⟨savingCalls_alike _ _, fun h => ?_⟩
  have hlen : 2 ^ 32 ≤ (List.replicate (2 ^ 32) (0 : UInt8)).length := Nat.le_of_eq List.length_replicate.symm
  have hlarge := savingCalls_large hlen
  rw [← h, savingCalls_small] at hlarge
  exact absurd hlarge (by decide)

end TwoRuns

/-! ### Secrets of the same lengths -/

section Lengths

variable {S F} {s s' : System X}

theorem savesAgreeAlong_of_lengths (hS : S.Correct) (hU : S.Seals) (hF : F.Lawful) (hW : F.Whole)
    {calls calls' : List (Caller X)} {past past' : List Output}
    (hcalls : List.Forall₂ (Caller.Alike lengths) calls calls') (h : s.Alike S F lengths s') (hs : s.Sound) (hs' : s'.Sound)
    (hpast : past.map (Output.veil lengths) = past'.map (Output.veil lengths)) :
    SavesAgreeAlong S F s s' past past' calls calls' := by
  induction hcalls generalizing s s' past past' with
  | nil => trivial
  | @cons call call' calls calls' hcall _ ih =>
    have hagree : (call past).SavesAgree S F s s' := by
      cases call past with
      | vault c => exact c.op.savesAgree_of_lengths hS (h.proc c.obj)
      | _ => trivial
    obtain ⟨hout, halike⟩ := step_alike hS hU hF hW h hs hs' (hcall past past' hpast) hagree
    have hstops : (s'.step S F (call' past')).1.stops = (s.step S F (call past)).1.stops := by
      rw [← Output.stops_veil (g := lengths), ← hout, Output.stops_veil]
    refine ⟨hagree, fun hgoes => ih halike (step_sound hs hgoes) (step_sound hs' (hstops.trans hgoes)) ?_⟩
    rw [List.map_append, List.map_append, hpast, List.map_singleton, List.map_singleton, hout]

/-- With secrets of the same lengths nothing else is asked. -/
theorem secrets_unseen_of_lengths (hS : S.Correct) (hU : S.Seals) (hF : F.Lawful) (hW : F.Whole) (fs : FS)
    {calls calls' : List (Caller X)} (hcalls : List.Forall₂ (Caller.Alike lengths) calls calls') :
    (System.start X fs).run S F lengths [] calls = (System.start X fs).run S F lengths [] calls' :=
  run_alike hS hU hF hW hcalls (alike_start fs) (sound_start fs) (sound_start fs) rfl
    (savesAgreeAlong_of_lengths hS hU hF hW hcalls (alike_start fs) (sound_start fs) (sound_start fs) rfl)

end Lengths

end Passdoq
