import Passdoq.Cli.Application
import Passdoq.Runcom.Lookup
import Passdoq.Vault.Interface

/-!
# The command line at its terminal

`Application` and `main` with all they read and write: each command is a client of the vault that prompts on the standard
streams. `CLI11` runs the callbacks of the subcommands that it has parsed in their order, and drops the values that they
return; an exception leaves the callbacks and is reported by `main`.

* `Terminal`, `Device` : the standard streams;
* `cmdInit`, ..., `cmdConfig`, `run`, `main` : under their names in the source;
* `Launch`, `Outcome`, `launch`, `launches` : processes, one after the other over the same files.
-/

namespace Passdoq
open Msgpack Crypto

/-- `what()`. None of the library's own exceptions leaves a vault. -/
def Exn.what : Exn → Bytes
  | .runtimeError what | .invalidArgument what => ascii what
  | .unpackError => ascii "parse error"
  | .typeError => ascii "std::bad_cast"
  | .containerSizeOverflow => ascii "container size overflow"
  | .iosFailure => ascii "basic_ios::clear: iostream error"

namespace Cli

/-! ## The terminal -/

inductive Device
  | cout (b : Bytes)
  | cerr (b : Bytes)
  | getline

def Device.Answer : Device → Type
  | .cout _ | .cerr _ => Unit
  | .getline => Bytes

/-- What there is still to read, and what has been written. -/
structure Terminal where
  input : Bytes
  output : Bytes
  errors : Bytes

/-- `std::getline` gives what there is up to a line feed, and nothing at the end. -/
def Terminal.handler : Handler Device Device.Answer Terminal
  | t, .cout b => some ((), { t with output := t.output ++ b })
  | t, .cerr b => some ((), { t with errors := t.errors ++ b })
  | t, .getline =>
    some (t.input.takeWhile fun c => c ≠ 10, { t with input := (t.input.dropWhile fun c => c ≠ 10).drop 1 })

abbrev Client := Program (Use Device) (Use.Answer Device.Answer)

abbrev Throwing := Passdoq.Throwing Device Device.Answer

namespace Application

def call (op : Op) : Throwing op.Result := Passdoq.Throwing.call op

def state : Throwing VaultState := Passdoq.Throwing.state

def cout (b : Bytes) : Throwing Unit := ExceptT.lift (Program.perform (Use.other (Device.cout b)))

def cerr (b : Bytes) : Throwing Unit := ExceptT.lift (Program.perform (Use.other (Device.cerr b)))

def getline : Throwing Bytes := ExceptT.lift (Program.perform (Use.other Device.getline))

/-! ## Prompts -/

/-- The echo of the terminal is off while the line is read, so the line feed is written instead. -/
def promptPassword (prompt : Bytes) : Throwing Bytes := do
  cout prompt
  let password ← getline
  cout (ascii "\n")
  return password

def promptInput (prompt : Bytes) : Throwing Bytes := do
  cout prompt
  getline

def readSecret : Throwing Bytes := promptPassword (ascii "Secret: ")

/-! ## Entries -/

/-- `std::string(80, '-')`. -/
def rule : Bytes := List.replicate 80 45

/-- The tags with a comma between each two. -/
def commaSeparated (tags : List Bytes) : Bytes := (tags.intersperse (ascii ", ")).flatten

def printEntry (entry : Entry) (showSecret : Bool) : Throwing Unit := do
  cout (ascii "ID: " ++ entry.id ++ ascii "\n")
  cout (ascii "Name: " ++ entry.name ++ ascii "\n")
  cout (ascii "Username: " ++ entry.username ++ ascii "\n")
  if showSecret then
    cout (ascii "Secret: " ++ entry.secret ++ ascii "\n")
  if entry.tags ≠ [] then
    cout (ascii "Tags: " ++ commaSeparated entry.tags ++ ascii "\n")
  if entry.metadata.toList ≠ [] then
    cout (ascii "Metadata:\n")
    entry.metadata.toList.forM fun pair => cout (ascii "  " ++ pair.1 ++ ascii ": " ++ pair.2 ++ ascii "\n")

def printEntries (entries : List Entry) : Throwing Unit := do
  cout (rule ++ ascii "\n")
  entries.forM fun entry => do
    printEntry entry false
    cout (rule ++ ascii "\n")

/-! ## Commands -/

variable (path : Bytes)

def ensureVaultOpen : Throwing Bool := do
  if (← state) = .uninitialized then
    let opened : Bool ← call (.open path)
    if ¬ opened then
      cerr (ascii "Failed to open vault. Use 'init' to create a new vault.\n")
      return false
  return true

def ensureVaultUnlocked : Throwing Bool := do
  let opened ← ensureVaultOpen path
  if ¬ opened then return false
  if (← state) ≠ .unlocked then
    let password ← promptPassword (ascii "Password: ")
    let unlocked : Bool ← call (.unlock password)
    if ¬ unlocked then
      cerr (ascii "Failed to unlock vault\n")
      return false
  return true

/-- The end of the commands that change the vault. -/
def saveAnd (report : Throwing Unit) : Throwing Nat := do
  let saved : Bool ← call .save
  if ¬ saved then
    cerr (ascii "Failed to save vault\n")
    return 1
  report
  return 0

def cmdInit : Throwing Nat := do
  cout (ascii "Initializing new vault at: " ++ path ++ ascii "\n")
  let password ← promptPassword (ascii "Enter master password: ")
  let confirm ← promptPassword (ascii "Confirm master password: ")
  if password ≠ confirm then
    cerr (ascii "Passwords do not match\n")
    return 1
  let created : Bool ← call (.create path password)
  if ¬ created then
    cerr (ascii "Failed to create vault\n")
    return 1
  cout (ascii "Vault created successfully\n")
  return 0

def cmdAdd : Throwing Nat := do
  if ¬ (← ensureVaultUnlocked path) then return 1
  let name ← promptInput (ascii "Name: ")
  let username ← promptInput (ascii "Username: ")
  let secret ← readSecret
  let tags ← promptInput (ascii "Tags (comma-separated): ")
  let id : Bytes ← call (.addEntry
    { Entry.blank with name := name, username := username, secret := secret, tags := splitTags tags })
  saveAnd (cout (ascii "Entry added with ID: " ++ id ++ ascii "\n"))

/-- `catch (const std::exception& e)` at the end of `get` and `update`. -/
def reportError (x : Exn) : Throwing Nat := do
  cerr (ascii "Error: " ++ x.what ++ ascii "\n")
  return 1

def cmdGet : Throwing Nat := do
  if ¬ (← ensureVaultUnlocked path) then return 1
  let id ← promptInput (ascii "Entry ID: ")
  tryCatch (do
    let entry : Entry ← call (.getEntry id)
    printEntry entry true
    return 0) reportError

def cmdList : Throwing Nat := do
  if ¬ (← ensureVaultUnlocked path) then return 1
  let entries : List Entry ← call .listEntries
  if entries = [] then
    cout (ascii "No entries found\n")
    return 0
  cout (ascii "\nEntries:\n")
  printEntries entries
  return 0

def cmdSearch : Throwing Nat := do
  if ¬ (← ensureVaultUnlocked path) then return 1
  let query ← promptInput (ascii "Search query: ")
  let entries : List Entry ← call (.search query)
  if entries = [] then
    cout (ascii "No entries found\n")
    return 0
  cout (ascii "\nFound " ++ Decimal.renderNat entries.length ++ ascii " entries:\n")
  printEntries entries
  return 0

/-- The new secret, when the user wants one. -/
def promptSecret (old : Bytes) : Throwing Bytes := do
  let updateSecret ← promptInput (ascii "Update secret? (y/n): ")
  if isYes updateSecret then readSecret else return old

def cmdUpdate : Throwing Nat := do
  if ¬ (← ensureVaultUnlocked path) then return 1
  let id ← promptInput (ascii "Entry ID: ")
  tryCatch (do
    let entry : Entry ← call (.getEntry id)
    cout (ascii "Current entry:\n")
    printEntry entry false
    cout (ascii "\nEnter new values (leave empty to keep current):\n")
    let name ← promptInput (ascii "Name [" ++ entry.name ++ ascii "]: ")
    let username ← promptInput (ascii "Username [" ++ entry.username ++ ascii "]: ")
    let secret ← promptSecret entry.secret
    let updated : Bool ← call (.updateEntry id { entry with
      name := if name ≠ [] then name else entry.name
      username := if username ≠ [] then username else entry.username
      secret := secret })
    if ¬ updated then
      cerr (ascii "Failed to update entry\n")
      return 1
    saveAnd (cout (ascii "Entry updated successfully\n"))) reportError

def cmdDelete : Throwing Nat := do
  if ¬ (← ensureVaultUnlocked path) then return 1
  let id ← promptInput (ascii "Entry ID: ")
  let confirm ← promptInput (ascii "Are you sure? (yes/no): ")
  if confirm ≠ ascii "yes" then
    cout (ascii "Cancelled\n")
    return 0
  let deleted : Bool ← call (.deleteEntry id)
  if ¬ deleted then
    cerr (ascii "Failed to delete entry\n")
    return 1
  saveAnd (cout (ascii "Entry deleted successfully\n"))

def cmdLock : Throwing Nat := do
  let _ ← call .lock
  cout (ascii "Vault locked\n")
  return 0

def cmdUnlock : Throwing Nat := do
  if ¬ (← ensureVaultOpen path) then return 1
  let password ← promptPassword (ascii "Password: ")
  let unlocked : Bool ← call (.unlock password)
  if ¬ unlocked then
    cerr (ascii "Failed to unlock vault (incorrect password?)\n")
    return 1
  cout (ascii "Vault unlocked\n")
  return 0

def cmdConfig (config : Runcom.Config) : Throwing Nat := do
  cout (ascii "Configuration:\n")
  config.values.toList.forM fun pair =>
    cout (ascii "  " ++ pair.1 ++ ascii " = " ++ config.getString pair.1 [] ++ ascii "\n")
  return 0

end Application

/-! ## Processes -/

inductive Subcommand
  | init
  | add
  | get
  | list
  | search
  | update
  | delete
  | lock
  | unlock
  | config
  deriving DecidableEq

/-- What a process starts with: whether libsodium initializes, the value of `-v`, what its `load_defaults` leaves or throws,
the value of `HOME`, the subcommands of its command line, what the user types, and the world of its calls. -/
structure Launch where
  init : Bool
  option : Option Bytes
  config : Except Exn Runcom.Config
  home : Option Bytes
  commands : List Subcommand
  input : Bytes
  envs : Nat → Env

structure Outcome where
  status : Nat
  output : Bytes
  errors : Bytes
  deriving DecidableEq

namespace Launch

variable (l : Launch)

def path (config : Runcom.Config) : Bytes :=
  vaultPath l.option (config.getString Runcom.vaultPathKey (ascii "~/.passdoq.vault")) l.home

variable (config : Runcom.Config)

def callback : Subcommand → Throwing Nat
  | .init => Application.cmdInit (l.path config)
  | .add => Application.cmdAdd (l.path config)
  | .get => Application.cmdGet (l.path config)
  | .list => Application.cmdList (l.path config)
  | .search => Application.cmdSearch (l.path config)
  | .update => Application.cmdUpdate (l.path config)
  | .delete => Application.cmdDelete (l.path config)
  | .lock => Application.cmdLock
  | .unlock => Application.cmdUnlock (l.path config)
  | .config => Application.cmdConfig config

/-- `app_->parse`. -/
def parse : List Subcommand → Throwing Unit
  | [] => pure ()
  | c :: commands => do
    let _ ← l.callback config c
    parse commands

def run : Throwing Nat := do
  if ¬ l.init then
    Application.cerr (ascii "Failed to initialize crypto library\n")
    return 1
  match l.config with
  | .error x => throw x
  | .ok config =>
    l.parse config l.commands
    return 0

def main : Client Nat := do
  match ← l.run.run with
  | .ok status => return status
  | .error x =>
    Program.perform (Use.other (Device.cerr (ascii "Fatal error: " ++ x.what ++ ascii "\n")))
    return 1

end Launch

variable {σ : Type} (B : Backend σ)

/-- One process, and what it leaves. -/
def launch (l : Launch) (s : σ) : Option (Outcome × σ) :=
  (l.main.run (B.handler l.envs Terminal.handler) ⟨B.restart s, 0, ⟨l.input, [], []⟩⟩).map fun r =>
    (⟨r.1, r.2.rest.output, r.2.rest.errors⟩, r.2.vault)

/-- One process after the other. -/
def launches : List Launch → σ → Option (List Outcome × σ)
  | [], s => some ([], s)
  | l :: ls, s => do
    let (outcome, s) ← launch B l s
    let (outcomes, s) ← launches ls s
    some (outcome :: outcomes, s)

end Cli

end Passdoq
