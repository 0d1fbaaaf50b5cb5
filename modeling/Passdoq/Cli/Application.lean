import Passdoq.Vault.Persistence

/-!
# The commands that change the vault

`Application::run` for the subcommands `add`, `update` and `delete`, from a fresh object to the exit status.

* `Command`, `Invocation` : the command with what its prompts read, and what the world supplies to its calls;
* `vaultPath`, `splitTags`, `ensureVaultOpen`, `ensureVaultUnlocked`, `cmdAdd`, `cmdUpdate`, `cmdDelete`, `run`, `main`.
-/

namespace Passdoq
open Msgpack Crypto Vault

namespace Cli

/-- The selected command, with the answers to its prompts. -/
inductive Command
  | add (name username secret tags : Bytes)
  | update (id name username updateSecret secret : Bytes)
  | delete (id confirm : Bytes)

structure Invocation where
  /-- whether libsodium initializes -/
  init : Bool
  /-- the value of `-v`, what the configuration says for `vault.path`, and the value of `HOME` -/
  option : Option Bytes
  configured : Bytes
  home : Option Bytes
  password : Bytes
  command : Command
  /-- for the calls of `open` and `unlock`, of the change, and of `save` -/
  opening : Env
  unlocking : Env
  changing : Env
  saving : Env

/-- The path of the vault: the option as it is, or the configured path with a leading `~` expanded. -/
def vaultPath (option : Option Bytes) (configured : Bytes) (home : Option Bytes) : Bytes :=
  match option with
  | some path => path
  | none => match configured, home with
    | c :: rest, some home => if c = 126 then home ++ rest else c :: rest
    | path, _ => path

def Invocation.path (i : Invocation) : Bytes := vaultPath i.option i.configured i.home

def isBlank (c : UInt8) : Bool := c = 32 || c = 9

/-- `tag.erase(0, tag.find_first_not_of(" \t")); tag.erase(tag.find_last_not_of(" \t") + 1)`. -/
def trim (tag : Bytes) : Bytes := (tag.dropWhile isBlank).rdropWhile isBlank

/-- The loop over the tags in `cmd_add`. -/
def splitTags (tags : Bytes) : List Bytes := ((getlines 44 tags).map trim).filter fun tag => tag ≠ []

variable (S : Sodium) (F : Format) (i : Invocation)

def ensureVaultOpen : Act Bool := do
  let v ← getVault
  if v.state = .uninitialized then
    let opened ← «open» S F i.opening i.path
    if ¬ opened then return false
  return true

def ensureVaultUnlocked : Act Bool := do
  let opened ← ensureVaultOpen S F i
  if ¬ opened then return false
  let v ← getVault
  if v.state ≠ .unlocked then
    let unlocked ← unlock S F i.unlocking i.password
    if ¬ unlocked then return false
  return true

def cmdAdd (name username secret tags : Bytes) : Act Nat := do
  let unlocked ← ensureVaultUnlocked S F i
  if ¬ unlocked then return 1
  let _ ← addEntry i.changing
    { Entry.blank with name := name, username := username, secret := secret, tags := splitTags tags }
  let saved ← save S F i.saving
  if ¬ saved then return 1
  return 0

/-- The answers on which `update` reads a new secret. -/
def isYes (answer : Bytes) : Bool := answer = ascii "y" || answer = ascii "yes"

/-- The entry with the new values; an empty answer keeps the old one. -/
def Command.revised (name username updateSecret secret : Bytes) (entry : Entry) : Entry :=
  { entry with
    name := if name ≠ [] then name else entry.name
    username := if username ≠ [] then username else entry.username
    secret := if isYes updateSecret then secret else entry.secret }

def cmdUpdate (id name username updateSecret secret : Bytes) : Act Nat := do
  let unlocked ← ensureVaultUnlocked S F i
  if ¬ unlocked then return 1
  Eff.catching Fault.isException (do
    let entry ← getEntry id
    let updated ← updateEntry i.changing id (Command.revised name username updateSecret secret entry)
    if ¬ updated then return 1
    let saved ← save S F i.saving
    if ¬ saved then return 1
    return 0) (pure 1)

def cmdDelete (id confirm : Bytes) : Act Nat := do
  let unlocked ← ensureVaultUnlocked S F i
  if ¬ unlocked then return 1
  if confirm ≠ ascii "yes" then return 0
  let deleted ← deleteEntry id
  if ¬ deleted then return 1
  let saved ← save S F i.saving
  if ¬ saved then return 1
  return 0

def callback : Act Nat :=
  match i.command with
  | .add name username secret tags => cmdAdd S F i name username secret tags
  | .update id name username updateSecret secret => cmdUpdate S F i id name username updateSecret secret
  | .delete id confirm => cmdDelete S F i id confirm

/-- `parse` runs the callback, and CLI11 drops the value that it returns. -/
def run : Act Nat := do
  if ¬ i.init then return 1
  let _ ← callback S F i
  return 0

/-- The exit status and the files after it; an exception that leaves `run` makes the status 1. -/
def main (fs : FS) : Except Fault Nat × FS :=
  let (status, p) := Eff.catching Fault.isException (run S F i) (pure 1) ⟨.fresh, fs⟩
  (status, p.fs)

end Cli

end Passdoq
