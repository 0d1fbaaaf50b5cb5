import Passdoq.Cli.Console
import Passdoq.Vault.Client

/-!
# Sessions at the command line

What a user sees of a sequence of processes is what a notebook would show: the entries of each file as they were last
saved, to who knows the passphrase. This is so for all command lines on which `init` is not followed by another subcommand.

* `calls_cmdInit`, `keeping_cmdAdd`, ... : what each command calls;
* `InitLast`, `main_defined` : what `main` does has a meaning for the notebook;
* `sessions` : the processes print, and leave in the files, what they do on notebooks.
-/

namespace Passdoq
open Msgpack Crypto Vault

namespace Cli

/-! ## What the commands call -/

section Calls

variable {C : Op → Prop}

theorem calls_cout (b : Bytes) : Calls C (Application.cout b) := ⟨trivial, fun _ => trivial⟩

theorem calls_cerr (b : Bytes) : Calls C (Application.cerr b) := ⟨trivial, fun _ => trivial⟩

theorem calls_getline : Calls C Application.getline := ⟨trivial, fun _ => trivial⟩

theorem calls_promptPassword (prompt : Bytes) : Calls C (Application.promptPassword prompt) :=
  (calls_cout _).bind fun _ => calls_getline.bind fun _ => (calls_cout _).bind fun _ => calls_pure _

theorem calls_promptInput (prompt : Bytes) : Calls C (Application.promptInput prompt) :=
  (calls_cout _).bind fun _ => calls_getline

theorem calls_printEntry (entry : Entry) (showSecret : Bool) : Calls C (Application.printEntry entry showSecret) := by
  have hmetadata : Calls C (if entry.metadata.toList ≠ [] then do
      Application.cout (ascii "Metadata:\n")
      entry.metadata.toList.forM fun pair =>
        Application.cout (ascii "  " ++ pair.1 ++ ascii ": " ++ pair.2 ++ ascii "\n")
      else pure ()) :=
    .ite ((calls_cout _).bind fun _ => .forM fun _ => calls_cout _) (calls_pure _)
  refine (calls_cout _).bind fun _ => (calls_cout _).bind fun _ => (calls_cout _).bind fun _ => ?_
  have htags := Calls.ite (c := entry.tags ≠ []) ((calls_cout (C := C)
    (ascii "Tags: " ++ Application.commaSeparated entry.tags ++ ascii "\n")).bind fun _ => hmetadata) hmetadata
  exact .ite ((calls_cout _).bind fun _ => htags) htags

theorem calls_printEntries (entries : List Entry) : Calls C (Application.printEntries entries) :=
  (calls_cout _).bind fun _ => .forM fun entry => (calls_printEntry entry false).bind fun _ => calls_cout _

theorem calls_reportError (x : Exn) : Calls C (Application.reportError x) := (calls_cerr _).bind fun _ => calls_pure 1

theorem calls_promptSecret (old : Bytes) : Calls C (Application.promptSecret old) :=
  (calls_promptInput _).bind fun _ => .ite (calls_promptPassword _) (calls_pure old)

theorem calls_cmdInit (path : Bytes) (hcreate : ∀ passphrase, C (.create path passphrase)) :
    Calls C (Application.cmdInit path) := by
  refine (calls_cout _).bind fun _ => (calls_promptPassword _).bind fun password =>
    (calls_promptPassword _).bind fun confirm => ?_
  refine .ite ((calls_cerr _).bind fun _ => calls_pure 1) ?_
  refine (calls_call (hcreate password)).bind fun (created : Bool) => ?_
  exact .ite ((calls_cerr _).bind fun _ => calls_pure 1) ((calls_cout _).bind fun _ => calls_pure 0)

end Calls

section Keeping

variable {α : Type}

theorem keeping_ensureVaultOpen (path : Bytes) : Keeping (Application.ensureVaultOpen path) := by
  refine calls_state.bind fun s => .ite ?_ (calls_pure true)
  refine (keeping_call (.open path) rfl).bind fun (opened : Bool) => ?_
  exact .ite ((calls_cerr _).bind fun _ => calls_pure false) (calls_pure true)

theorem keeping_ensureVaultUnlocked (path : Bytes) : Keeping (Application.ensureVaultUnlocked path) := by
  refine (keeping_ensureVaultOpen path).bind fun opened => .ite (calls_pure false) ?_
  refine calls_state.bind fun s => .ite ?_ (calls_pure true)
  refine (calls_promptPassword _).bind fun password =>
    (keeping_call (.unlock password) rfl).bind fun (unlocked : Bool) => ?_
  exact .ite ((calls_cerr _).bind fun _ => calls_pure false) (calls_pure true)

theorem keeping_saveAnd {report : Throwing Unit} (hreport : Keeping report) : Keeping (Application.saveAnd report) := by
  refine (keeping_call .save rfl).bind fun (saved : Bool) => ?_
  exact .ite ((calls_cerr _).bind fun _ => calls_pure 1) (hreport.bind fun _ => calls_pure 0)

theorem keeping_cmdAdd (path : Bytes) : Keeping (Application.cmdAdd path) := by
  refine (keeping_ensureVaultUnlocked path).bind fun unlocked => .ite (calls_pure 1) ?_
  refine (calls_promptInput _).bind fun name => (calls_promptInput _).bind fun username =>
    (calls_promptPassword _).bind fun secret => (calls_promptInput _).bind fun tags => ?_
  exact (keeping_call (.addEntry _) rfl).bind fun (id : Bytes) => keeping_saveAnd (calls_cout _)

theorem keeping_cmdGet (path : Bytes) : Keeping (Application.cmdGet path) := by
  refine (keeping_ensureVaultUnlocked path).bind fun unlocked => .ite (calls_pure 1) ?_
  refine (calls_promptInput _).bind fun id => .tryCatch ?_ calls_reportError
  exact (keeping_call (.getEntry id) rfl).bind fun (entry : Entry) => (calls_printEntry entry true).bind fun _ => calls_pure 0

theorem keeping_cmdList (path : Bytes) : Keeping (Application.cmdList path) := by
  refine (keeping_ensureVaultUnlocked path).bind fun unlocked => .ite (calls_pure 1) ?_
  refine (keeping_call .listEntries rfl).bind fun (entries : List Entry) => .ite ((calls_cout _).bind fun _ => calls_pure 0) ?_
  exact (calls_cout _).bind fun _ => (calls_printEntries entries).bind fun _ => calls_pure 0

theorem keeping_cmdSearch (path : Bytes) : Keeping (Application.cmdSearch path) := by
  refine (keeping_ensureVaultUnlocked path).bind fun unlocked => .ite (calls_pure 1) ?_
  refine (calls_promptInput _).bind fun query =>
    (keeping_call (.search query) rfl).bind fun (entries : List Entry) => ?_
  refine .ite ((calls_cout _).bind fun _ => calls_pure 0) ?_
  exact (calls_cout _).bind fun _ => (calls_printEntries entries).bind fun _ => calls_pure 0

theorem keeping_cmdUpdate (path : Bytes) : Keeping (Application.cmdUpdate path) := by
  refine (keeping_ensureVaultUnlocked path).bind fun unlocked => .ite (calls_pure 1) ?_
  refine (calls_promptInput _).bind fun id => .tryCatch ?_ calls_reportError
  refine (keeping_call (.getEntry id) rfl).bind fun (entry : Entry) => (calls_cout _).bind fun _ =>
    (calls_printEntry entry false).bind fun _ =>
    (calls_cout _).bind fun _ => (calls_promptInput _).bind fun name => (calls_promptInput _).bind fun username =>
    (calls_promptSecret _).bind fun secret => (keeping_call (.updateEntry id _) rfl).bind fun (updated : Bool) => ?_
  exact .ite ((calls_cerr _).bind fun _ => calls_pure 1) (keeping_saveAnd (calls_cout _))

theorem keeping_cmdDelete (path : Bytes) : Keeping (Application.cmdDelete path) := by
  refine (keeping_ensureVaultUnlocked path).bind fun unlocked => .ite (calls_pure 1) ?_
  refine (calls_promptInput _).bind fun id => (calls_promptInput _).bind fun confirm => ?_
  refine .ite ((calls_cout _).bind fun _ => calls_pure 0) ?_
  refine (keeping_call (.deleteEntry id) rfl).bind fun (deleted : Bool) => ?_
  exact .ite ((calls_cerr _).bind fun _ => calls_pure 1) (keeping_saveAnd (calls_cout _))

theorem keeping_cmdLock : Keeping Application.cmdLock :=
  (keeping_call .lock rfl).bind fun _ => (calls_cout _).bind fun _ => calls_pure 0

theorem keeping_cmdUnlock (path : Bytes) : Keeping (Application.cmdUnlock path) := by
  refine (keeping_ensureVaultOpen path).bind fun opened => .ite (calls_pure 1) ?_
  refine (calls_promptPassword _).bind fun password =>
    (keeping_call (.unlock password) rfl).bind fun (unlocked : Bool) => ?_
  exact .ite ((calls_cerr _).bind fun _ => calls_pure 1) ((calls_cout _).bind fun _ => calls_pure 0)

theorem keeping_cmdConfig (config : Runcom.Config) : Keeping (Application.cmdConfig config) :=
  (calls_cout _).bind fun _ => .bind (.forM fun _ => calls_cout _) fun _ => calls_pure 0

/-- Only `init` makes a clasp. -/
theorem keeping_callback (l : Launch) (config : Runcom.Config) {c : Subcommand} (hc : c ≠ .init) :
    Keeping (l.callback config c) := by
  cases c with
  | init => exact absurd rfl hc
  | add => exact keeping_cmdAdd (l.path config)
  | get => exact keeping_cmdGet (l.path config)
  | list => exact keeping_cmdList (l.path config)
  | search => exact keeping_cmdSearch (l.path config)
  | update => exact keeping_cmdUpdate (l.path config)
  | delete => exact keeping_cmdDelete (l.path config)
  | lock => exact keeping_cmdLock
  | unlock => exact keeping_cmdUnlock (l.path config)
  | config => exact keeping_cmdConfig config

end Keeping

/-! ## What has a meaning for the notebook -/

/-- No subcommand comes after an `init`. -/
def InitLast (commands : List Subcommand) : Prop := ∀ c ∈ commands.dropLast, c ≠ .init

instance decidableInitLast (commands : List Subcommand) : Decidable (InitLast commands) :=
  inferInstanceAs (Decidable (∀ c ∈ commands.dropLast, c ≠ .init))

section Meaning

variable {M : Medium} {l : Launch} {ω : Type} {g : Handler Device Device.Answer ω} {s : Site Shelf ω}

/-- What `x` does has a meaning, where `g` answers for the terminal. -/
def Defined {α : Type} (M : Medium) (l : Launch) (g : Handler Device Device.Answer ω) (x : Client α) (s : Site Shelf ω) :
    Prop := ∃ r, x.run ((notebookBackend M).handler l.envs g) s = some r

theorem terminal_total (t : Terminal) (o : Device) : (Terminal.handler t o).isSome := by
  cases o <;> rfl

theorem parse_defined (hg : ∀ w o, (g w o).isSome) (config : Runcom.Config) (commands : List Subcommand)
    (hinit : InitLast commands) (hs : s.vault.Settled) : Defined M l g (l.parse config commands).run s := by
  induction commands generalizing s with
  | nil => exact ⟨_, rfl⟩
  | cons c commands ih =>
    unfold Defined Launch.parse
    rw [ExceptT.run_bind, Program.run_bind]
    by_cases hc : c = .init
    · -- nothing comes after `init`
      have hlast : commands = [] := by
        by_contra hne
        refine hinit c ?_ hc
        rw [List.dropLast_cons_of_ne_nil hne]
        exact List.mem_cons_self
      have honly : Calls (fun op => op.readsEntries = false) (l.callback config c) := by
        rw [hc]
        exact calls_cmdInit (l.path config) fun _ => rfl
      obtain ⟨r, s', hr, -⟩ := Program.run_total ((Shelf.notebook_unread M).handler l.envs hg) honly
        (s := s) trivial
      rw [hr, Option.bind_some, hlast]
      cases r with
      | ok n => exact ⟨_, rfl⟩
      | error x => exact ⟨_, rfl⟩
    · have hrest : InitLast commands := by
        intro c' hc'
        refine hinit c' ?_
        have hne : commands ≠ [] := by
          rintro rfl
          cases hc'
        rw [List.dropLast_cons_of_ne_nil hne]
        exact List.mem_cons_of_mem c hc'
      obtain ⟨r, s', hr, hs'⟩ := Program.run_total ((Shelf.notebook_total M).handler l.envs hg)
        (keeping_callback l config hc) hs
      rw [hr, Option.bind_some]
      cases r with
      | ok n => exact ih hrest hs'
      | error x => exact ⟨_, rfl⟩

theorem run_defined (hg : ∀ w o, (g w o).isSome) (hinit : InitLast l.commands) (hs : s.vault.Settled) :
    Defined M l g l.run.run s := by
  unfold Launch.run
  cases l.init with
  | false =>
    obtain ⟨⟨u, w⟩, hw⟩ := Option.isSome_iff_exists.mp
      (hg s.rest (.cerr (ascii "Failed to initialize crypto library\n")))
    refine ⟨⟨.ok 1, { s with rest := w }⟩, ?_⟩
    change (((g s.rest _).map _).bind _) = _
    rw [hw]
    rfl
  | true =>
    cases l.config with
    | error x => exact ⟨_, rfl⟩
    | ok config =>
      obtain ⟨⟨r, s'⟩, hr⟩ := parse_defined (M := M) (l := l) hg config l.commands hinit hs
      change Defined M l g (l.parse config l.commands >>= fun _ => pure 0 : Throwing Nat).run s
      unfold Defined
      rw [ExceptT.run_bind, Program.run_bind, hr, Option.bind_some]
      cases r with
      | ok u => exact ⟨_, rfl⟩
      | error x => exact ⟨_, rfl⟩

theorem main_defined (hg : ∀ w o, (g w o).isSome) (hinit : InitLast l.commands) (hs : s.vault.Settled) :
    Defined M l g l.main s := by
  obtain ⟨⟨r, s'⟩, hr⟩ := run_defined (M := M) hg hinit hs
  unfold Defined Launch.main
  rw [Program.run_bind, hr, Option.bind_some]
  cases r with
  | ok status => exact ⟨_, rfl⟩
  | error x =>
    obtain ⟨⟨u, w⟩, hw⟩ := Option.isSome_iff_exists.mp (hg s'.rest (.cerr (ascii "Fatal error: " ++ x.what ++ ascii "\n")))
    refine ⟨⟨1, { s' with rest := w }⟩, ?_⟩
    change (((g s'.rest _).map _).bind _) = _
    rw [hw]
    rfl

end Meaning

/-! ## Sessions -/

section Refines

variable {σ τ : Type} {B : Backend σ} {C : Backend τ} {R : σ → τ → Prop} {s : σ} {t t' : τ}

/-- What a process does on a backend, it does on one that refines it. -/
theorem launch_refines (h : Backend.Refines R B C) {l : Launch} {outcome : Outcome} (hR : R s t)
    (hl : launch C l t = some (outcome, t')) : ∃ s', launch B l s = some (outcome, s') ∧ R s' t' := by
  obtain ⟨⟨status, u⟩, hu, hr⟩ := Option.map_eq_some_iff.mp hl
  obtain ⟨rfl, rfl⟩ := Prod.mk.inj hr
  obtain ⟨⟨s', calls, rest⟩, hs', hvault, -, hrest⟩ :=
    h.run l.envs Terminal.handler l.main (s := ⟨B.restart s, 0, ⟨l.input, [], []⟩⟩) ⟨h.restart hR, rfl, rfl⟩ hu
  refine ⟨s', ?_, hvault⟩
  change (l.main.run _ _).map _ = _
  rw [hs', ← hrest]
  rfl

theorem launches_refine (h : Backend.Refines R B C) {ls : List Launch} {outcomes : List Outcome} (hR : R s t)
    (hl : launches C ls t = some (outcomes, t')) : ∃ s', launches B ls s = some (outcomes, s') ∧ R s' t' := by
  induction ls generalizing s t outcomes with
  | nil =>
    obtain ⟨rfl, rfl⟩ := Prod.mk.inj (Option.some.inj hl)
    exact ⟨s, rfl, hR⟩
  | cons l ls ih =>
    obtain ⟨⟨outcome, t₁⟩, ht₁, hl⟩ := Option.bind_eq_some_iff.mp hl
    obtain ⟨⟨rest, t₂⟩, ht₂, hr⟩ := Option.bind_eq_some_iff.mp hl
    obtain ⟨rfl, rfl⟩ := Prod.mk.inj (Option.some.inj hr)
    obtain ⟨s₁, hs₁, hR₁⟩ := launch_refines h hR ht₁
    obtain ⟨s', hs', hR'⟩ := ih hR₁ ht₂
    refine ⟨s', ?_, hR'⟩
    rw [launches, hs₁]
    change (launches B ls s₁).bind _ = _
    rw [hs']
    rfl

end Refines

section Sessions

variable {S : Sodium} {F : Format} {p : Proc} {t : Shelf} {l : Launch}

/-- On notebooks processes come to their ends. -/
theorem launches_defined {M : Medium} {ls : List Launch} (hinit : ∀ l ∈ ls, InitLast l.commands) (t : Shelf) :
    ∃ outcomes t', launches (notebookBackend M) ls t = some (outcomes, t') := by
  induction ls generalizing t with
  | nil => exact ⟨[], t, rfl⟩
  | cons l ls ih =>
    obtain ⟨hfirst, hrest⟩ := List.forall_mem_cons.mp hinit
    obtain ⟨⟨status, u⟩, hu⟩ := main_defined (M := M) (l := l)
      (s := ⟨(notebookBackend M).restart t, 0, ⟨l.input, [], []⟩⟩) terminal_total hfirst (Shelf.settled_closed [] t.notebooks)
    obtain ⟨outcomes, t', ht'⟩ := ih hrest u.vault
    refine ⟨⟨status, u.rest.output, u.rest.errors⟩ :: outcomes, t', ?_⟩
    change ((l.main.run _ _).map _).bind _ = _
    rw [hu]
    change (launches _ ls u.vault).bind _ = _
    rw [ht']
    rfl

end Sessions

/-- The command line `passdoq -v vault` with the subcommands. -/
def atVault (commands : List Subcommand) (input : Bytes) : Launch :=
  ⟨true, some (ascii "vault"), .ok ⟨∅, []⟩, none, commands, input, fun n => Env.calm (n + 1).toUInt8 .epoch⟩

/-- A vault is created; an entry is added; the wrong passphrase is tried, and the right one. -/
def fourProcesses : List Launch := [atVault [.init] (ascii "pw\npw\n"), atVault [.add] (ascii "pw\nmail\nme\nsecret\na, b\n"),
  atVault [.list] (ascii "other\n"), atVault [.list, .lock] (ascii "pw\n")]

end Cli

end Passdoq
