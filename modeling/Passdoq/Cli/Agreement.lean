import Passdoq.Cli.Console
import Passdoq.Cli.Status

/-!
# The commands at the terminal

A process at its terminal with the subcommand `add`, `update` or `delete` has the exit status, and leaves the files, of the
command alone, when its prompts read the lines of the terminal.

* `Launch.command`, `Launch.invocation` : the command with the lines that its prompts read, and the worlds of its calls;
* `performs_cmdAdd`, `performs_cmdUpdate`, `performs_cmdDelete` : what each command does with the vault;
* `launch_main` : the status and the files of the process; `path_eq` : the path of its vault.
-/

namespace Passdoq
open Msgpack Crypto Vault

namespace Cli

/-! ## The lines that are read -/

/-- The next line, and what is still to be read after it. -/
def firstLine (input : Bytes) : Bytes := input.takeWhile fun c => c ≠ 10

def afterLine (input : Bytes) : Bytes := (input.dropWhile fun c => c ≠ 10).drop 1

namespace Launch

variable (l : Launch)

/-- The `n`-th line. -/
def line (n : Nat) : Bytes := firstLine (afterLine^[n] l.input)

/-- The first line is the passphrase, the others are the answers to the prompts of the command. -/
def command : Subcommand → Option Command
  | .add => some (.add (l.line 1) (l.line 2) (l.line 3) (l.line 4))
  | .update => some (.update (l.line 1) (l.line 2) (l.line 3) (l.line 4) (l.line 5))
  | .delete => some (.delete (l.line 1) (l.line 2))
  | _ => none

/-- The call that changes the vault comes after `open` and `unlock`, and in `update` after `get_entry`. -/
def changing : Command → Nat
  | .update .. => 3
  | _ => 2

def invocation (config : Runcom.Config) (command : Command) : Invocation where
  init := l.init
  option := l.option
  configured := config.getString Runcom.vaultPathKey (ascii "~/.passdoq.vault")
  home := l.home
  password := l.line 0
  command := command
  opening := l.envs 0
  unlocking := l.envs 1
  changing := l.envs (changing command)
  saving := l.envs (changing command + 1)

end Launch

/-! ## What the commands do with the vault -/

/-- The vault object at a terminal. -/
abbrev Seat := Site Proc Terminal

/-- The next call of the vault is the `n`-th, and `w` is still to be read. -/
structure Seat.Reads (n : Nat) (w : Bytes) (s : Seat) : Prop where
  calls : s.calls = n
  input : s.rest.input = w

/-- A fresh object at a terminal with the input. -/
structure Seat.Starts (w : Bytes) (s : Seat) : Prop where
  fresh : s.vault.vault = Vault.fresh
  reads : s.Reads 0 w

section Performs

variable {S : Sodium} {F : Format} {envs : Nat → Env} {α : Type} {n : Nat} {w : Bytes}

/-- A part of the application does with the vault what `x` does. -/
abbrev Does (S : Sodium) (F : Format) (envs : Nat → Env) (P : Seat → Prop) (x : Act α) (y : Throwing α)
    (Q : α → Seat → Prop) : Prop := Performs S F envs Terminal.handler P x y Q

section Terminal

variable {Q : α → Seat → Prop} {x : Act α}

/-- Nothing is said of what has been written. -/
theorem Seat.Reads.written {s : Seat} (h : s.Reads n w) (output errors : Bytes) :
    Seat.Reads n w { s with rest := ⟨s.rest.input, output, errors⟩ } := ⟨h.calls, h.input⟩

/-- The part only writes. -/
def Writes (S : Sodium) (F : Format) (envs : Nat → Env) (y : Throwing Unit) : Prop :=
  ∀ n w, Does S F envs (Seat.Reads n w) (pure ()) y fun _ => Seat.Reads n w

theorem Writes.then {y : Throwing Unit} {k : Unit → Throwing α} (hy : Writes S F envs y)
    (h : Does S F envs (Seat.Reads n w) x (k ()) Q) : Does S F envs (Seat.Reads n w) x (y >>= k) Q :=
  Performs.after ((hy n w).mono (fun _ h => h) fun _ _ h => ⟨rfl, h⟩) h

theorem writes_cout (b : Bytes) : Writes S F envs (Application.cout b) := by
  intro n w
  refine performs_other (A := Device.Answer) (o := .cout b) (Q := fun _ => Seat.Reads n w) fun s hs => ?_
  exact ⟨_, rfl, Seat.Reads.written hs _ _⟩

theorem writes_cerr (b : Bytes) : Writes S F envs (Application.cerr b) := by
  intro n w
  refine performs_other (A := Device.Answer) (o := .cerr b) (Q := fun _ => Seat.Reads n w) fun s hs => ?_
  exact ⟨_, rfl, Seat.Reads.written hs _ _⟩

theorem writes_pure : Writes S F envs (pure ()) := fun _ _ => performs_pure fun _ h => h

theorem Writes.bind {y : Throwing Unit} {k : Unit → Throwing Unit} (hy : Writes S F envs y)
    (hk : ∀ u, Writes S F envs (k u)) : Writes S F envs (y >>= k) := fun n w => hy.then (hk () n w)

theorem Writes.ite {c : Prop} [Decidable c] {y y' : Throwing Unit} (hy : Writes S F envs y) (hy' : Writes S F envs y') :
    Writes S F envs (if c then y else y') := by
  split_ifs
  · exact hy
  · exact hy'

theorem Writes.forM {β : Type} {f : β → Throwing Unit} (hf : ∀ b, Writes S F envs (f b)) (l : List β) :
    Writes S F envs (l.forM f) := by
  induction l with
  | nil => exact writes_pure
  | cons b l ih => exact (hf b).bind fun _ => ih

theorem writes_printEntry (entry : Entry) : Writes S F envs (Application.printEntry entry false) := by
  have hmetadata : Writes S F envs (if entry.metadata.toList ≠ [] then do
      Application.cout (ascii "Metadata:\n")
      entry.metadata.toList.forM fun pair =>
        Application.cout (ascii "  " ++ pair.1 ++ ascii ": " ++ pair.2 ++ ascii "\n")
      else pure ()) := .ite ((writes_cout _).bind fun _ => .forM (fun _ => writes_cout _) _) writes_pure
  have htags := Writes.ite (c := entry.tags ≠ []) ((writes_cout
    (ascii "Tags: " ++ Application.commaSeparated entry.tags ++ ascii "\n")).bind fun _ => hmetadata) hmetadata
  exact (writes_cout _).bind fun _ => (writes_cout _).bind fun _ => (writes_cout _).bind fun _ => htags

theorem does_getline {k : Bytes → Throwing α} (h : Does S F envs (Seat.Reads n (afterLine w)) x (k (firstLine w)) Q) :
    Does S F envs (Seat.Reads n w) x (Application.getline >>= k) Q := by
  refine Performs.after (I := Seat.Reads n (afterLine w)) (a := firstLine w) ?_ h
  refine performs_other (o := Device.getline) fun s hs => ?_
  obtain ⟨vault, calls, input, output, errors⟩ := s
  obtain ⟨rfl, rfl⟩ := hs
  exact ⟨_, rfl, rfl, rfl, rfl⟩

theorem does_promptInput {k : Bytes → Throwing α} (h : Does S F envs (Seat.Reads n (afterLine w)) x (k (firstLine w)) Q)
    (prompt : Bytes) : Does S F envs (Seat.Reads n w) x (Application.promptInput prompt >>= k) Q :=
  (writes_cout prompt).then (k := fun _ => Application.getline >>= k) (does_getline h)

theorem does_promptPassword {k : Bytes → Throwing α}
    (h : Does S F envs (Seat.Reads n (afterLine w)) x (k (firstLine w)) Q) (prompt : Bytes) :
    Does S F envs (Seat.Reads n w) x (Application.promptPassword prompt >>= k) Q :=
  (writes_cout prompt).then (k := fun _ => do
    let password ← Application.getline
    Application.cout (ascii "\n")
    k password) (does_getline ((writes_cout _).then h))

end Terminal

theorem does_call (op : Op) (n : Nat) (w : Bytes) :
    Does S F envs (Seat.Reads n w) (perform S F (envs n) op) (Application.call op) fun _ => Seat.Reads (n + 1) w :=
  performs_call op (fun _ hs => congrArg envs hs.calls) fun _ _ _ hs _ => ⟨congrArg (· + 1) hs.calls, hs.input⟩

/-! ## The vault is opened and unlocked -/

variable (l : Launch) (config : Runcom.Config) (command : Command)

theorem does_open : Does S F l.envs (Seat.Starts w) («open» S F (l.envs 0) (l.path config))
    (Application.call (.open (l.path config))) fun (opened : Bool) s =>
      (opened = true → s.vault.vault.state = .locked) ∧ Seat.Reads 1 w s := by
  refine performs_call (.open (l.path config)) (fun s hs => congrArg l.envs hs.reads.calls) ?_
  rintro ⟨⟨v, fs⟩, calls, terminal⟩ opened p ⟨hfresh, hcalls, hinput⟩ hp
  obtain rfl : v = Vault.fresh := hfresh
  refine ⟨fun ho => ?_, congrArg (· + 1) hcalls, hinput⟩
  subst ho
  obtain ⟨-, data, map, hdr, -, -, -, rfl⟩ := open_reads hp
  rfl

theorem does_ensureVaultOpen : Does S F l.envs (Seat.Starts w) (ensureVaultOpen S F (l.invocation config command))
    (Application.ensureVaultOpen (l.path config)) fun opened s =>
      opened = true → s.vault.vault.state = .locked ∧ Seat.Reads 1 w s := by
  refine performs_state fun v s hs => ?_
  obtain ⟨⟨hfresh, hreads⟩, hv⟩ := hs
  obtain rfl : v = Vault.fresh := hv.symm.trans hfresh
  have hopen : Does S F l.envs (Seat.Starts w) (do
      let opened ← «open» S F (l.envs 0) (l.path config)
      if ¬ opened then return false
      return true) (do
      let opened : Bool ← Application.call (.open (l.path config))
      if ¬ opened then
        Application.cerr (ascii "Failed to open vault. Use 'init' to create a new vault.\n")
        return false
      return true) fun opened s => opened = true → s.vault.vault.state = .locked ∧ Seat.Reads 1 w s := by
    refine (does_open l config).bind fun opened => .unless (fun _ => ?_) fun ho => ?_
    · refine Performs.mono (P := Seat.Reads 1 w) ((writes_cerr _).then ?_) (fun _ h => h.2) fun _ _ h => h
      exact performs_pure fun _ _ => nofun
    · exact performs_pure fun s hs _ => ⟨hs.1 ho, hs.2⟩
  exact hopen s ⟨hfresh, hreads⟩

/-- The passphrase is read from the first line. -/
theorem does_ensureVaultUnlocked : Does S F l.envs (Seat.Starts l.input)
    (ensureVaultUnlocked S F (l.invocation config command)) (Application.ensureVaultUnlocked (l.path config))
      fun unlocked s => unlocked = true → Seat.Reads 2 (afterLine l.input) s := by
  refine (does_ensureVaultOpen l config command).bind fun opened => Performs.unless
    (fun _ => performs_pure fun _ _ => nofun) fun ho => ?_
  refine performs_state fun v s hs => ?_
  obtain ⟨hs, rfl⟩ := hs
  obtain ⟨hlocked, hreads⟩ := hs ho
  have hunlock : Does S F l.envs (Seat.Reads 1 l.input) (do
      let unlocked ← unlock S F (l.envs 1) (l.line 0)
      if ¬ unlocked then return false
      return true) (do
      let password ← Application.promptPassword (ascii "Password: ")
      let unlocked : Bool ← Application.call (.unlock password)
      if ¬ unlocked then
        Application.cerr (ascii "Failed to unlock vault\n")
        return false
      return true) fun unlocked s => unlocked = true → Seat.Reads 2 (afterLine l.input) s := by
    refine does_promptPassword ?_ _
    refine (does_call (.unlock (l.line 0)) 1 _).bind fun (unlocked : Bool) => ?_
    refine .unless (fun _ => ?_) fun _ => performs_pure fun _ hs _ => hs
    refine (writes_cerr _).then ?_
    exact performs_pure fun _ _ => nofun
  have hne : s.vault.vault.state ≠ .unlocked := by
    rw [hlocked]
    exact nofun
  rw [if_pos hne, if_pos hne]
  exact hunlock s hreads

/-! ## Commands -/

/-- The end of a command. -/
theorem does_end {y : Throwing Unit} (hy : Writes S F envs y) (status : Nat) :
    Does S F envs (Seat.Reads n w) (pure status) (do y; return status) fun _ _ => True := by
  refine hy.then ?_
  exact performs_pure fun _ _ => trivial

theorem does_reportError (x : Exn) :
    Does S F envs (fun _ => True) (pure 1) (Application.reportError x) fun _ _ => True :=
  fun s _ => does_end (writes_cerr _) 1 s ⟨rfl, rfl⟩

theorem does_saveAnd (report : Bytes) : Does S F envs (Seat.Reads n w) (do
    let saved ← save S F (envs n)
    if ¬ saved then return 1
    return 0) (Application.saveAnd (Application.cout report)) fun _ _ => True :=
  (does_call .save n w).bind fun (_ : Bool) =>
    .unless (fun _ => does_end (writes_cerr _) 1) fun _ => does_end (writes_cout report) 0

theorem performs_cmdAdd : Does S F l.envs (Seat.Starts l.input)
    (cmdAdd S F (l.invocation config (.add (l.line 1) (l.line 2) (l.line 3) (l.line 4)))
      (l.line 1) (l.line 2) (l.line 3) (l.line 4)) (Application.cmdAdd (l.path config)) fun _ _ => True := by
  refine (does_ensureVaultUnlocked l config _).bind fun unlocked => .unless
    (fun _ => performs_pure fun _ _ => trivial) fun hu => ?_
  refine Performs.mono (P := Seat.Reads 2 (afterLine l.input)) ?_ (fun _ h => h hu) fun _ _ h => h
  refine does_promptInput (does_promptInput (does_promptPassword (does_promptInput ?_ _) _) _) _
  exact (does_call (.addEntry _) 2 _).bind fun (id : Bytes) => does_saveAnd _

/-- A new secret is read, or not. -/
theorem does_promptSecret (old : Bytes) : Does S F envs (Seat.Reads n w)
    (pure (if isYes (firstLine w) then firstLine (afterLine w) else old)) (Application.promptSecret old) fun b s =>
      b = (if isYes (firstLine w) then firstLine (afterLine w) else old) ∧ ∃ v, Seat.Reads n v s := by
  refine does_promptInput ?_ _
  by_cases hyes : isYes (firstLine w) = true
  · rw [if_pos hyes, if_pos hyes]
    have hread : Does S F envs (Seat.Reads n (afterLine w)) (pure (firstLine (afterLine w)))
        (Application.readSecret >>= pure) fun b s => b = firstLine (afterLine w) ∧ ∃ v, Seat.Reads n v s := by
      refine does_promptPassword ?_ _
      exact performs_pure fun _ hs => ⟨rfl, _, hs⟩
    exact hread
  · rw [if_neg hyes, if_neg hyes]
    exact performs_pure fun _ hs => ⟨rfl, _, hs⟩

theorem performs_cmdUpdate : Does S F l.envs (Seat.Starts l.input)
    (cmdUpdate S F (l.invocation config (.update (l.line 1) (l.line 2) (l.line 3) (l.line 4) (l.line 5)))
      (l.line 1) (l.line 2) (l.line 3) (l.line 4) (l.line 5)) (Application.cmdUpdate (l.path config)) fun _ _ => True := by
  refine (does_ensureVaultUnlocked l config _).bind fun unlocked => .unless
    (fun _ => performs_pure fun _ _ => trivial) fun hu => ?_
  refine Performs.mono (P := Seat.Reads 2 (afterLine l.input)) ?_ (fun _ h => h hu) fun _ _ h => h
  refine does_promptInput (.catching ?_ does_reportError) _
  refine (does_call (.getEntry (l.line 1)) 2 _).bind fun (entry : Entry) => ?_
  refine (writes_cout _).then ((writes_printEntry entry).then ((writes_cout _).then ?_))
  refine does_promptInput (does_promptInput ?_ _) _
  refine Performs.after (does_promptSecret entry.secret) ?_
  rintro s ⟨v, hs⟩
  refine Performs.bind (does_call (.updateEntry (l.line 1) _) 3 v) (fun (updated : Bool) => ?_) s hs
  exact .unless (fun _ => does_end (writes_cerr _) 1) fun _ => does_saveAnd _

theorem performs_cmdDelete : Does S F l.envs (Seat.Starts l.input)
    (cmdDelete S F (l.invocation config (.delete (l.line 1) (l.line 2))) (l.line 1) (l.line 2))
      (Application.cmdDelete (l.path config)) fun _ _ => True := by
  refine (does_ensureVaultUnlocked l config _).bind fun unlocked => .unless
    (fun _ => performs_pure fun _ _ => trivial) fun hu => ?_
  refine Performs.mono (P := Seat.Reads 2 (afterLine l.input)) ?_ (fun _ h => h hu) fun _ _ h => h
  refine does_promptInput (does_promptInput (.ite (does_end (writes_cout _) 0) ?_) _) _
  refine (does_call (.deleteEntry (l.line 1)) 2 _).bind fun (deleted : Bool) =>
    .unless (fun _ => does_end (writes_cerr _) 1) fun _ => does_saveAnd _

/-! ## Processes -/

variable {l config command}

theorem performs_callback {c : Subcommand} (hc : l.command c = some command) : Does S F l.envs (Seat.Starts l.input)
    (callback S F (l.invocation config command)) (l.callback config c) fun _ _ => True := by
  cases c with
  | add =>
    obtain rfl := Option.some.inj hc
    exact performs_cmdAdd l config
  | update =>
    obtain rfl := Option.some.inj hc
    exact performs_cmdUpdate l config
  | delete =>
    obtain rfl := Option.some.inj hc
    exact performs_cmdDelete l config
  | _ => cases hc

theorem performs_run {c : Subcommand} (hconfig : l.config = .ok config) (hcommands : l.commands = [c])
    (hc : l.command c = some command) : Does S F l.envs (Seat.Starts l.input)
    (run S F (l.invocation config command)) l.run fun _ _ => True := by
  have hparse : Does S F l.envs (Seat.Starts l.input) (do
      let _ ← callback S F (l.invocation config command)
      return 0) (do
      l.parse config [c]
      return 0) fun _ _ => True := by
    have hcallback : Does S F l.envs (Seat.Starts l.input) (do
        let _ ← callback S F (l.invocation config command)
        return ()) (l.parse config [c]) fun _ _ => True :=
      (performs_callback hc).bind fun _ => performs_pure fun _ _ => trivial
    have hbind := hcallback.bind fun _ => performs_pure (a := 0) (Q := fun _ _ => True) fun _ _ => trivial
    rwa [Eff.bind_bind] at hbind
  unfold Launch.run
  rw [hconfig, hcommands]
  exact .ite (fun s hs => does_end (writes_cerr _) 1 s hs.reads) hparse

/-- The status and the files, unless the process is stopped. -/
def ended : Except Fault Nat × FS → Option (Nat × FS)
  | (.ok status, fs) => some (status, fs)
  | (.error _, _) => none

/-- A process at its terminal has the status, and leaves the files, of the command with the lines that its prompts read. -/
theorem launch_main {c : Subcommand} (hconfig : l.config = .ok config) (hcommands : l.commands = [c])
    (hc : l.command c = some command) (p : Proc) :
    (launch (vaultBackend S F) l p).map (fun r => (r.1.status, r.2.fs)) =
      ended (main S F (l.invocation config command) p.fs) := by
  have hstarts : Seat.Starts l.input ⟨⟨.fresh, p.fs⟩, 0, ⟨l.input, [], []⟩⟩ := ⟨rfl, rfl, rfl⟩
  have hrun := performs_run (S := S) (F := F) hconfig hcommands hc _ hstarts
  unfold launch main Launch.main
  rw [Program.run_bind, Eff.catching_apply]
  have hrestart : (vaultBackend S F).restart p = ⟨.fresh, p.fs⟩ := rfl
  rw [hrestart]
  generalize run S F (l.invocation config command) ⟨.fresh, p.fs⟩ = r, l.run.run.run ((vaultBackend S F).handler l.envs
    Terminal.handler) ⟨⟨.fresh, p.fs⟩, 0, ⟨l.input, [], []⟩⟩ = r' at hrun
  cases hrun <;> rfl

/-- The vault of a process: what `-v` says, or what `run` makes of the configuration. -/
theorem path_eq {given : Bytes} (hgiven : given = [] ∨ given = ascii "~/.passdoq.vault") :
    l.path config = l.option.getD (Runcom.vaultPath config given l.home) := by
  unfold Launch.path vaultPath Runcom.vaultPath
  rw [if_pos hgiven]
  cases l.option with
  | some path => rfl
  | none =>
    rcases config.getString Runcom.vaultPathKey (ascii "~/.passdoq.vault") with _ | ⟨c, rest⟩
    · rfl
    · cases l.home with
      | none => by_cases hc : c = 126 <;> simp [hc]
      | some home => by_cases hc : c = 126 <;> simp [hc]

end Performs

end Cli

end Passdoq
