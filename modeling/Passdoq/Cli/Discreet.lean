import Passdoq.Cli.Sessions
import Passdoq.Lib.Coupled
import Passdoq.Lib.Twins
import Passdoq.Vault.Veil

/-!
# Secrets are not shown

Whatever the secrets in the files are, and whatever is typed where a secret is asked for, the processes print the same and
return the same, as long as nobody asks for an entry with `get`. Lengths of secrets are not hidden.

* `Typed`, `Typist` : lines at the terminal, with those marked that are secret; the typist slips where one is read that no
  prompt has asked for;
* `view` : what is seen of the calls of a client; `Discreet P x y` : the parts look the same and end in what `P` relates;
* `discreet_cmdAdd`, ... : every command but `get` is discreet;
* `prompted` : nobody slips; `secrets_unshown` : then sessions that differ in secrets only have the same outcomes.
-/

namespace Passdoq
open Msgpack Crypto Vault

namespace Cli

/-! ## Typed lines -/

inductive Typed
  | line (b : Bytes)
  | secret (b : Bytes)

namespace Typed

def bytes : Typed → Bytes
  | .line b | .secret b => b

/-- Of a secret the length is seen. -/
def veil : Typed → Typed
  | .line b => .line b
  | .secret b => .secret (lengths b)

end Typed

/-- What the terminal reads. -/
def typedInput (lines : List Typed) : Bytes := lines.flatMap fun l => l.bytes ++ [10]

/-- The prompt for a secret. -/
def secretPrompt : Bytes := ascii "Secret: "

structure Typist where
  lines : List Typed
  output : Bytes
  errors : Bytes
  /-- the last thing written is the prompt for a secret, and nothing has been read since -/
  asked : Bool
  /-- a secret has been read that was not asked for -/
  slipped : Bool

def Typist.handler : Handler Device Device.Answer Typist
  | y, .cout b => some ((), { y with output := y.output ++ b, asked := decide (b = secretPrompt) })
  | y, .cerr b => some ((), { y with errors := y.errors ++ b, asked := false })
  | y, .getline =>
    match y.lines with
    | [] => some ([], { y with asked := false })
    | .line b :: lines => some (b, { y with lines := lines, asked := false })
    | .secret b :: lines => some (b, { y with lines := lines, asked := false, slipped := y.slipped || !y.asked })

theorem typist_total (y : Typist) (o : Device) : (Typist.handler y o).isSome := by
  obtain ⟨lines, output, errors, asked, slipped⟩ := y
  cases o with
  | cout | cerr => rfl
  | getline => rcases lines with _ | ⟨_ | _, _⟩ <;> rfl

theorem typist_slipped {y y' : Typist} {o : Device} {x : o.Answer} (h : Typist.handler y o = some (x, y'))
    (hy' : y'.slipped = false) : y.slipped = false := by
  obtain ⟨lines, output, errors, asked, slipped⟩ := y
  cases o with
  | cout | cerr =>
    obtain ⟨rfl, rfl⟩ := Prod.mk.inj (Option.some.inj h)
    exact hy'
  | getline =>
    rcases lines with _ | ⟨_ | b, lines⟩
    · obtain ⟨rfl, rfl⟩ := Prod.mk.inj (Option.some.inj h)
      exact hy'
    · obtain ⟨rfl, rfl⟩ := Prod.mk.inj (Option.some.inj h)
      exact hy'
    · obtain ⟨rfl, rfl⟩ := Prod.mk.inj (Option.some.inj h)
      exact (Bool.or_eq_false_iff.mp hy').1

/-- The terminal with the lines of the typist. -/
structure Types (t : Terminal) (y : Typist) : Prop where
  input : t.input = typedInput y.lines
  whole : ∀ l ∈ y.lines, (10 : UInt8) ∉ l.bytes
  output : t.output = y.output
  errors : t.errors = y.errors

theorem read_line {b : Bytes} (rest : Bytes) (h : (10 : UInt8) ∉ b) : (b ++ [10] ++ rest).takeWhile (fun c => c ≠ 10) = b ∧
    ((b ++ [10] ++ rest).dropWhile fun c => c ≠ 10).drop 1 = rest := by
  have hall : ∀ c ∈ b, decide (c ≠ 10) = true := by
    intro c hc
    rw [decide_eq_true_eq]
    rintro rfl
    exact h hc
  rw [List.append_assoc]
  constructor
  · rw [List.takeWhile_append_of_pos hall]
    simp
  · rw [List.dropWhile_append_of_pos hall]
    simp

theorem types_handler : Handler.Simulates Types Terminal.handler Typist.handler := by
  intro t y o x y' hR ho
  obtain ⟨hinput, hwhole, houtput, herrors⟩ := hR
  cases o with
  | cout b =>
    obtain ⟨rfl, rfl⟩ := Prod.mk.inj (Option.some.inj ho)
    exact ⟨_, rfl, hinput, hwhole, congrArg (· ++ b) houtput, herrors⟩
  | cerr b =>
    obtain ⟨rfl, rfl⟩ := Prod.mk.inj (Option.some.inj ho)
    exact ⟨_, rfl, hinput, hwhole, houtput, congrArg (· ++ b) herrors⟩
  | getline =>
    obtain ⟨lines, output, errors, asked, slipped⟩ := y
    have hread : ∀ (l : Typed) rest slipped', lines = l :: rest → ∃ t',
        Terminal.handler t .getline = some (l.bytes, t') ∧ Types t' ⟨rest, output, errors, false, slipped'⟩ := by
      rintro l rest slipped' rfl
      have hline := read_line (typedInput rest) (hwhole l List.mem_cons_self)
      have hwhole := fun l' hl' => hwhole l' (List.mem_cons_of_mem l hl')
      refine ⟨{ t with input := typedInput rest }, ?_, rfl, hwhole, houtput, herrors⟩
      change some (t.input.takeWhile (fun c => c ≠ 10),
        ({ t with input := (t.input.dropWhile fun c => c ≠ 10).drop 1 } : Terminal)) = _
      rw [hinput]
      change some ((l.bytes ++ [10] ++ typedInput rest).takeWhile _,
        ({ t with input := ((l.bytes ++ [10] ++ typedInput rest).dropWhile _).drop 1 } : Terminal)) = _
      rw [hline.1, hline.2]
    cases lines with
    | nil =>
      obtain ⟨rfl, rfl⟩ := Prod.mk.inj (Option.some.inj ho)
      refine ⟨{ t with input := [] }, ?_, rfl, nofun, houtput, herrors⟩
      change some (t.input.takeWhile _, ({ t with input := (t.input.dropWhile _).drop 1 } : Terminal)) = _
      rw [hinput]
      rfl
    | cons l rest =>
      cases l with
      | line b =>
        obtain ⟨rfl, rfl⟩ := Prod.mk.inj (Option.some.inj ho)
        exact hread _ _ _ rfl
      | secret b =>
        obtain ⟨rfl, rfl⟩ := Prod.mk.inj (Option.some.inj ho)
        exact hread _ _ _ rfl

/-! ## What is seen -/

/-- What is seen of an answer. -/
inductive Seen
  | state (s : VaultState)
  | reply (r : Except Exn Reply)
  | unit
  | line (b : Bytes)

/-- Secrets are seen by their lengths: in entries, and in what is read behind the prompt for one. -/
def view : View (Use Device) (Use.Answer Device.Answer) Bool (Use Device) Seen where
  call
    | .call op => .call (op.veil lengths)
    | use => use
  answer
    | _, .state, s => .state s
    | _, .call op, r => .reply (op.seen lengths r)
    | _, .other (.cout _), _ | _, .other (.cerr _), _ => .unit
    | asked, .other .getline, b => .line (if asked then lengths b else b)
  next
    | _, .other (.cout b) => decide (b = secretPrompt)
    | _, .other _ => false
    | asked, _ => asked

/-- The parts look the same, and throw the same or end in what `P` relates. -/
def Discreet {α β : Type} (P : α → β → Prop) (x : Throwing α) (y : Throwing β) : Prop :=
  ∀ asked, Program.Tied view (Eff.Same P) asked x.run y.run

section Rules

variable {α β γ δ : Type} {P : α → β → Prop} {Q : γ → δ → Prop}

theorem discreet_pure {a : α} {b : β} (h : P a b) : Discreet P (pure a) (pure b) := fun _ => .ok h

theorem Discreet.bind {x : Throwing α} {y : Throwing β} {f : α → Throwing γ} {f' : β → Throwing δ} (hx : Discreet P x y)
    (hf : ∀ a b, P a b → Discreet Q (f a) (f' b)) : Discreet Q (x >>= f) (y >>= f') := by
  intro asked
  refine (hx asked).bind fun r r' hr asked => ?_
  cases hr with
  | ok h => exact hf _ _ h asked
  | error e => exact .error e

theorem Discreet.tryCatch {x : Throwing α} {y : Throwing β} {f : Exn → Throwing α} {f' : Exn → Throwing β}
    (hx : Discreet P x y) (hf : ∀ e, Discreet P (f e) (f' e)) : Discreet P (tryCatch x f) (tryCatch y f') := by
  intro asked
  refine (hx asked).bind fun r r' hr asked => ?_
  cases hr with
  | ok h => exact .ok h
  | error e => exact hf e asked

theorem Discreet.ite {c : Prop} [Decidable c] {x x' : Throwing α} {y y' : Throwing β} (hx : Discreet P x y)
    (hx' : Discreet P x' y') : Discreet P (if c then x else x') (if c then y else y') := by
  split_ifs
  · exact hx
  · exact hx'

theorem Discreet.mono {P' : α → β → Prop} {x : Throwing α} {y : Throwing β} (hx : Discreet P x y)
    (hP : ∀ a b, P a b → P' a b) : Discreet P' x y := fun asked => (hx asked).mono fun _ _ h => h.mono hP

theorem discreet_cout (b : Bytes) : Discreet (· = ·) (Application.cout b) (Application.cout b) :=
  fun _ => ⟨rfl, fun _ _ _ => .ok rfl⟩

theorem discreet_cerr (b : Bytes) : Discreet (· = ·) (Application.cerr b) (Application.cerr b) :=
  fun _ => ⟨rfl, fun _ _ _ => .ok rfl⟩

theorem discreet_state : Discreet (· = ·) Application.state Application.state :=
  fun _ => ⟨rfl, fun _ _ h => .ok (Seen.state.inj h)⟩

/-- Calls that look the same return what looks the same. -/
theorem discreet_call {op op' : Op} (h : op.veil lengths = op'.veil lengths) :
    Discreet (fun a b => (op.reply a).veil lengths = (op'.reply b).veil lengths) (Application.call op)
      (Application.call op') := by
  intro asked
  refine ⟨congrArg Use.call h, fun r r' hr => ?_⟩
  have hseen : op.seen lengths r = op'.seen lengths r' := Seen.reply.inj hr
  cases r with
  | ok a =>
    cases r' with
    | ok b => exact .ok (Except.ok.inj hseen)
    | error e => cases hseen
  | error e =>
    cases r' with
    | ok b => cases hseen
    | error e' =>
      obtain rfl := Except.error.inj hseen
      exact .error e

/-- What is read behind another prompt is no secret. -/
theorem read_unasked {prompt b b' : Bytes} (h : prompt ≠ secretPrompt)
    (hb : view.answer (decide (prompt = secretPrompt)) (.other .getline) b =
      view.answer (decide (prompt = secretPrompt)) (.other .getline) b') : b = b' := by
  rw [decide_eq_false h] at hb
  exact Seen.line.inj hb

theorem discreet_promptInput {prompt : Bytes} (h : prompt ≠ secretPrompt) :
    Discreet (· = ·) (Application.promptInput prompt) (Application.promptInput prompt) :=
  fun _ => ⟨rfl, fun _ _ _ => ⟨rfl, fun _ _ hb => .ok (read_unasked h hb)⟩⟩

theorem discreet_promptPassword {prompt : Bytes} (h : prompt ≠ secretPrompt) :
    Discreet (· = ·) (Application.promptPassword prompt) (Application.promptPassword prompt) :=
  fun _ => ⟨rfl, fun _ _ _ => ⟨rfl, fun _ _ hb => ⟨rfl, fun _ _ _ => .ok (read_unasked h hb)⟩⟩⟩

theorem discreet_readSecret : Discreet (fun b b' => lengths b = lengths b') Application.readSecret Application.readSecret :=
  fun _ => ⟨rfl, fun _ _ _ => ⟨rfl, fun _ _ hb => ⟨rfl, fun _ _ _ => .ok (Seen.line.inj hb)⟩⟩⟩

end Rules

/-! ## Commands -/

/-- The same entry but for the secret, which has the same length. -/
structure Twin (entry entry' : Entry) : Prop where
  veil : entry.veil lengths = entry'.veil lengths

section Commands

variable {entry entry' : Entry} {path : Bytes}

theorem Twin.name (h : Twin entry entry') : entry.name = entry'.name :=
  (congrArg Entry.name h.veil :)

theorem Twin.username (h : Twin entry entry') : entry.username = entry'.username :=
  (congrArg Entry.username h.veil :)

theorem Twin.secret (h : Twin entry entry') : lengths entry.secret = lengths entry'.secret :=
  congrArg Entry.secret h.veil

theorem Twin.edited (h : Twin entry entry') (name username : Bytes) {secret secret' : Bytes}
    (hsecret : lengths secret = lengths secret') :
    Twin { entry with name := name, username := username, secret := secret }
      { entry' with name := name, username := username, secret := secret' } := by
  have hveil := congrArg (fun e : Entry => { e with name := name, username := username, secret := lengths secret }) h.veil
  constructor
  unfold Entry.veil
  rw [← hsecret]
  exact hveil

/-- What starts otherwise does not ask for a secret. -/
theorem prompt_ne {first rest last : Bytes} (h : ¬ first <+: secretPrompt) : first ++ rest ++ last ≠ secretPrompt := by
  intro heq
  refine h ⟨rest ++ last, ?_⟩
  rw [← List.append_assoc, heq]

/-- Without its secret, what is printed of an entry is what is seen of it. -/
theorem printEntry_veil (entry : Entry) :
    Application.printEntry (entry.veil lengths) false = Application.printEntry entry false := by
  simp [Application.printEntry, Entry.veil]

theorem printEntries_veil (entries : List Entry) :
    Application.printEntries (entries.map (Entry.veil lengths)) = Application.printEntries entries := by
  have hall : ∀ entries : List Entry,
      ((entries.map (Entry.veil lengths)).forM (fun entry => (do
        Application.printEntry entry false
        Application.cout (Application.rule ++ ascii "\n") : Throwing Unit))) =
      entries.forM (fun entry => (do
        Application.printEntry entry false
        Application.cout (Application.rule ++ ascii "\n") : Throwing Unit)) := by
    intro entries
    induction entries with
    | nil => rfl
    | cons entry entries ih =>
      rw [List.map_cons, List.forM, List.forM, printEntry_veil, ih]
  unfold Application.printEntries
  rw [hall]

theorem Discreet.forM {α : Type} {f : α → Throwing Unit} (hf : ∀ a, Discreet (· = ·) (f a) (f a)) (l : List α) :
    Discreet (· = ·) (l.forM f) (l.forM f) := by
  induction l with
  | nil => exact discreet_pure rfl
  | cons a l ih => exact (hf a).bind fun _ _ _ => ih

theorem discreet_printEntry (entry : Entry) :
    Discreet (· = ·) (Application.printEntry entry false) (Application.printEntry entry false) := by
  have hmetadata : Discreet (· = ·) (if entry.metadata.toList ≠ [] then do
      Application.cout (ascii "Metadata:\n")
      entry.metadata.toList.forM fun pair =>
        Application.cout (ascii "  " ++ pair.1 ++ ascii ": " ++ pair.2 ++ ascii "\n")
      else pure ()) (if entry.metadata.toList ≠ [] then do
      Application.cout (ascii "Metadata:\n")
      entry.metadata.toList.forM fun pair =>
        Application.cout (ascii "  " ++ pair.1 ++ ascii ": " ++ pair.2 ++ ascii "\n")
      else pure ()) :=
    .ite ((discreet_cout _).bind fun _ _ _ => .forM (fun _ => discreet_cout _) _) (discreet_pure rfl)
  refine (discreet_cout _).bind fun _ _ _ => (discreet_cout _).bind fun _ _ _ => (discreet_cout _).bind fun _ _ _ => ?_
  have htags := Discreet.ite (c := entry.tags ≠ []) ((discreet_cout
    (ascii "Tags: " ++ Application.commaSeparated entry.tags ++ ascii "\n")).bind fun _ _ _ => hmetadata) hmetadata
  exact .ite ((discreet_cout _).bind fun _ _ _ => htags) htags

theorem discreet_printEntries (entries : List Entry) :
    Discreet (· = ·) (Application.printEntries entries) (Application.printEntries entries) :=
  (discreet_cout _).bind fun _ _ _ => .forM (fun entry => (discreet_printEntry entry).bind fun _ _ _ => discreet_cout _) _

theorem discreet_self (op : Op) : Discreet (fun a b => (op.reply a).veil lengths = (op.reply b).veil lengths)
    (Application.call op) (Application.call op) := discreet_call rfl

theorem discreet_fail (b : Bytes) {α : Type} (a : α) :
    Discreet (· = ·) (do Application.cerr b; return a) (do Application.cerr b; return a) :=
  (discreet_cerr b).bind fun _ _ _ => discreet_pure rfl

theorem discreet_done (b : Bytes) {α : Type} (a : α) :
    Discreet (· = ·) (do Application.cout b; return a) (do Application.cout b; return a) :=
  (discreet_cout b).bind fun _ _ _ => discreet_pure rfl

theorem discreet_reportError (x : Exn) : Discreet (· = ·) (Application.reportError x) (Application.reportError x) :=
  discreet_fail _ _

theorem discreet_ensureVaultOpen (path : Bytes) :
    Discreet (· = ·) (Application.ensureVaultOpen path) (Application.ensureVaultOpen path) := by
  refine discreet_state.bind fun s _ hs => ?_
  subst hs
  refine .ite ?_ (discreet_pure rfl)
  refine (discreet_self (.open path)).bind fun (opened : Bool) (opened' : Bool) h => ?_
  obtain rfl : opened = opened' := Reply.bool.inj h
  exact .ite (discreet_fail _ _) (discreet_pure rfl)

theorem discreet_ensureVaultUnlocked (path : Bytes) :
    Discreet (· = ·) (Application.ensureVaultUnlocked path) (Application.ensureVaultUnlocked path) := by
  refine (discreet_ensureVaultOpen path).bind fun opened _ h => ?_
  subst h
  refine .ite (discreet_pure rfl) (discreet_state.bind fun s _ hs => ?_)
  subst hs
  refine .ite ?_ (discreet_pure rfl)
  refine (discreet_promptPassword (by decide)).bind fun password _ hp => ?_
  subst hp
  refine (discreet_self (.unlock password)).bind fun (unlocked : Bool) (unlocked' : Bool) h => ?_
  obtain rfl : unlocked = unlocked' := Reply.bool.inj h
  exact .ite (discreet_fail _ _) (discreet_pure rfl)

theorem discreet_saveAnd (report : Bytes) :
    Discreet (· = ·) (Application.saveAnd (Application.cout report)) (Application.saveAnd (Application.cout report)) := by
  refine (discreet_self .save).bind fun (saved : Bool) (saved' : Bool) h => ?_
  obtain rfl : saved = saved' := Reply.bool.inj h
  exact .ite (discreet_fail _ _) (discreet_done _ _)

theorem discreet_cmdInit (path : Bytes) : Discreet (· = ·) (Application.cmdInit path) (Application.cmdInit path) := by
  refine (discreet_cout _).bind fun _ _ _ => (discreet_promptPassword (by decide)).bind fun password _ hp =>
    (discreet_promptPassword (by decide)).bind fun confirm _ hc => ?_
  subst hp hc
  refine .ite (discreet_fail _ _) ?_
  refine (discreet_self (.create path password)).bind fun (created : Bool) (created' : Bool) h => ?_
  obtain rfl : created = created' := Reply.bool.inj h
  exact .ite (discreet_fail _ _) (discreet_done _ _)

theorem discreet_cmdAdd (path : Bytes) : Discreet (· = ·) (Application.cmdAdd path) (Application.cmdAdd path) := by
  refine (discreet_ensureVaultUnlocked path).bind fun unlocked _ h => ?_
  subst h
  refine .ite (discreet_pure rfl) ?_
  refine (discreet_promptInput (by decide)).bind fun name _ hname =>
    (discreet_promptInput (by decide)).bind fun username _ husername =>
    discreet_readSecret.bind fun secret secret' hsecret => (discreet_promptInput (by decide)).bind fun tags _ htags => ?_
  subst hname husername htags
  have htwin : Twin { Entry.blank with name := name, username := username, secret := secret, tags := splitTags tags }
      { Entry.blank with name := name, username := username, secret := secret', tags := splitTags tags } := by
    constructor
    unfold Entry.veil
    rw [hsecret]
  have hop : (Op.addEntry _).veil lengths = (Op.addEntry _).veil lengths := congrArg Op.addEntry htwin.veil
  refine (discreet_call hop).bind fun (id : Bytes) (id' : Bytes) h => ?_
  obtain rfl : id = id' := Reply.id.inj h
  exact discreet_saveAnd _

theorem discreet_list {entries entries' : List Entry}
    (h : entries.map (Entry.veil lengths) = entries'.map (Entry.veil lengths)) (found : Nat → Bytes) :
    Discreet (· = ·)
      (if entries = [] then do
        Application.cout (ascii "No entries found\n")
        return 0
      else do
        Application.cout (found entries.length)
        Application.printEntries entries
        return 0 : Throwing Nat)
      (if entries' = [] then do
        Application.cout (ascii "No entries found\n")
        return 0
      else do
        Application.cout (found entries'.length)
        Application.printEntries entries'
        return 0) := by
  have hlen : entries.length = entries'.length := by
    have hlen := congrArg List.length h
    rwa [List.length_map, List.length_map] at hlen
  have hnil : entries = [] ↔ entries' = [] := by
    rw [← List.length_eq_zero_iff, ← List.length_eq_zero_iff, hlen]
  rw [← printEntries_veil entries, ← printEntries_veil entries', h, hlen]
  simp only [hnil]
  refine .ite (discreet_done _ _) ?_
  exact (discreet_cout _).bind fun _ _ _ => (discreet_printEntries _).bind fun _ _ _ => discreet_pure rfl

theorem discreet_cmdList (path : Bytes) : Discreet (· = ·) (Application.cmdList path) (Application.cmdList path) := by
  refine (discreet_ensureVaultUnlocked path).bind fun unlocked _ h => ?_
  subst h
  refine .ite (discreet_pure rfl) ?_
  refine (discreet_self .listEntries).bind fun (entries : List Entry) (entries' : List Entry) h => ?_
  exact discreet_list (Reply.entries.inj h) fun _ => ascii "\nEntries:\n"

theorem discreet_cmdSearch (path : Bytes) : Discreet (· = ·) (Application.cmdSearch path) (Application.cmdSearch path) := by
  refine (discreet_ensureVaultUnlocked path).bind fun unlocked _ h => ?_
  subst h
  refine .ite (discreet_pure rfl) ?_
  refine (discreet_promptInput (by decide)).bind fun query _ hquery => ?_
  subst hquery
  refine (discreet_self (.search query)).bind fun (entries : List Entry) (entries' : List Entry) h => ?_
  exact discreet_list (Reply.entries.inj h) fun n => ascii "\nFound " ++ Decimal.renderNat n ++ ascii " entries:\n"

theorem discreet_promptSecret {old old' : Bytes} (h : lengths old = lengths old') :
    Discreet (fun b b' => lengths b = lengths b') (Application.promptSecret old) (Application.promptSecret old') := by
  refine (discreet_promptInput (by decide)).bind fun updateSecret _ hu => ?_
  subst hu
  exact .ite discreet_readSecret (discreet_pure h)

theorem discreet_cmdUpdate (path : Bytes) : Discreet (· = ·) (Application.cmdUpdate path) (Application.cmdUpdate path) := by
  refine (discreet_ensureVaultUnlocked path).bind fun unlocked _ h => ?_
  subst h
  refine .ite (discreet_pure rfl) ?_
  refine (discreet_promptInput (by decide)).bind fun id _ hid => ?_
  subst hid
  refine .tryCatch ?_ discreet_reportError
  refine (discreet_self (.getEntry id)).bind fun (entry : Entry) (entry' : Entry) h => ?_
  have htwin : Twin entry entry' := ⟨Reply.entry.inj h⟩
  have hprint : Discreet (· = ·) (Application.printEntry entry false) (Application.printEntry entry' false) := by
    rw [← printEntry_veil entry, ← printEntry_veil entry', htwin.veil]
    exact discreet_printEntry _
  refine (discreet_cout _).bind fun _ _ _ => hprint.bind fun _ _ _ => (discreet_cout _).bind fun _ _ _ => ?_
  rw [htwin.name, htwin.username]
  refine (discreet_promptInput (prompt_ne (by decide))).bind fun name _ hn =>
    (discreet_promptInput (prompt_ne (by decide))).bind fun username _ hu =>
    (discreet_promptSecret htwin.secret).bind fun secret secret' hsecret => ?_
  subst hn hu
  have hedited := htwin.edited (if name ≠ [] then name else entry'.name)
    (if username ≠ [] then username else entry'.username) hsecret
  have hop : (Op.updateEntry id _).veil lengths = (Op.updateEntry id _).veil lengths :=
    congrArg (Op.updateEntry id) hedited.veil
  refine (discreet_call hop).bind fun (updated : Bool) (updated' : Bool) h => ?_
  obtain rfl : updated = updated' := Reply.bool.inj h
  exact .ite (discreet_fail _ _) (discreet_saveAnd _)

theorem discreet_cmdDelete (path : Bytes) : Discreet (· = ·) (Application.cmdDelete path) (Application.cmdDelete path) := by
  refine (discreet_ensureVaultUnlocked path).bind fun unlocked _ h => ?_
  subst h
  refine .ite (discreet_pure rfl) ?_
  refine (discreet_promptInput (by decide)).bind fun id _ hid => (discreet_promptInput (by decide)).bind fun confirm _ hc => ?_
  subst hid hc
  refine .ite (discreet_done _ _) ?_
  refine (discreet_self (.deleteEntry id)).bind fun (deleted : Bool) (deleted' : Bool) h => ?_
  obtain rfl : deleted = deleted' := Reply.bool.inj h
  exact .ite (discreet_fail _ _) (discreet_saveAnd _)

theorem discreet_cmdLock : Discreet (· = ·) Application.cmdLock Application.cmdLock :=
  (discreet_self .lock).bind fun _ _ _ => discreet_done _ _

theorem discreet_cmdUnlock (path : Bytes) : Discreet (· = ·) (Application.cmdUnlock path) (Application.cmdUnlock path) := by
  refine (discreet_ensureVaultOpen path).bind fun opened _ h => ?_
  subst h
  refine .ite (discreet_pure rfl) ?_
  refine (discreet_promptPassword (by decide)).bind fun password _ hp => ?_
  subst hp
  refine (discreet_self (.unlock password)).bind fun (unlocked : Bool) (unlocked' : Bool) h => ?_
  obtain rfl : unlocked = unlocked' := Reply.bool.inj h
  exact .ite (discreet_fail _ _) (discreet_done _ _)

theorem discreet_cmdConfig (config : Runcom.Config) :
    Discreet (· = ·) (Application.cmdConfig config) (Application.cmdConfig config) :=
  (discreet_cout _).bind fun _ _ _ => (Discreet.forM (fun _ => discreet_cout _) _).bind fun _ _ _ => discreet_pure rfl

/-- Only `get` shows a secret. -/
theorem discreet_callback (l : Launch) (config : Runcom.Config) {c : Subcommand} (hc : c ≠ .get) :
    Discreet (· = ·) (l.callback config c) (l.callback config c) := by
  cases c with
  | get => exact absurd rfl hc
  | init => exact discreet_cmdInit (l.path config)
  | add => exact discreet_cmdAdd (l.path config)
  | list => exact discreet_cmdList (l.path config)
  | search => exact discreet_cmdSearch (l.path config)
  | update => exact discreet_cmdUpdate (l.path config)
  | delete => exact discreet_cmdDelete (l.path config)
  | lock => exact discreet_cmdLock
  | unlock => exact discreet_cmdUnlock (l.path config)
  | config => exact discreet_cmdConfig config

theorem discreet_parse (l : Launch) (config : Runcom.Config) {commands : List Subcommand} (hget : ∀ c ∈ commands, c ≠ .get) :
    Discreet (· = ·) (l.parse config commands) (l.parse config commands) := by
  induction commands with
  | nil => exact discreet_pure rfl
  | cons c commands ih =>
    obtain ⟨hc, hget⟩ := List.forall_mem_cons.mp hget
    exact (discreet_callback l config hc).bind fun _ _ _ => ih hget

theorem discreet_run (l : Launch) (hget : ∀ c ∈ l.commands, c ≠ .get) : Discreet (· = ·) l.run l.run := by
  refine .ite (discreet_fail _ _) ?_
  cases l.config with
  | error x => exact fun _ => .error x
  | ok config => exact (discreet_parse l config hget).bind fun _ _ _ => discreet_pure rfl

theorem main_tied (l : Launch) (hget : ∀ c ∈ l.commands, c ≠ .get) (asked : Bool) :
    Program.Tied view (· = ·) asked l.main l.main := by
  refine (discreet_run l hget asked).bind fun r r' hr asked => ?_
  cases hr with
  | ok h => exact h
  | error e => exact ⟨rfl, fun _ _ _ => rfl⟩

end Commands

/-! ## Sittings -/

/-- The sites look the same, in the phase. -/
structure Looks (asked : Bool) (s s' : Site Shelf Typist) : Prop where
  vault : s.vault.veil lengths = s'.vault.veil lengths
  calls : s.calls = s'.calls
  lines : s.rest.lines.map Typed.veil = s'.rest.lines.map Typed.veil
  output : s.rest.output = s'.rest.output
  errors : s.rest.errors = s'.rest.errors
  phase : s.rest.asked = asked
  phase' : s'.rest.asked = asked

/-- What is read without a slip looks the same. -/
theorem typist_getline {asked : Bool} {s s' : Site Shelf Typist} {b : Bytes} {y : Typist} (h : Looks asked s s')
    (hc : Typist.handler s.rest .getline = some (b, y)) (hy : y.slipped = false) :
    ∃ b' y', Typist.handler s'.rest .getline = some (b', y') ∧ view.answer asked (.other .getline) b =
      view.answer asked (.other .getline) b' ∧ Looks false { s with rest := y } { s' with rest := y' } := by
  obtain ⟨hvault, hcalls, hlines, houtput, herrors, hasked, hasked'⟩ := h
  obtain ⟨vault, calls, lines, output, errors, asked₀, slipped⟩ := s
  obtain ⟨vault', calls', lines', output', errors', asked₀', slipped'⟩ := s'
  dsimp only at *
  subst hasked hasked'
  cases lines with
  | nil =>
    obtain rfl : lines' = [] := List.map_eq_nil_iff.mp hlines.symm
    obtain ⟨rfl, rfl⟩ := Prod.mk.inj (Option.some.inj hc)
    exact ⟨_, _, rfl, rfl, hvault, hcalls, rfl, houtput, herrors, rfl, rfl⟩
  | cons l rest =>
    obtain ⟨l', rest', rfl, hl, hrest⟩ := List.map_eq_cons_iff.mp hlines.symm
    cases l with
    | line b₀ =>
      cases l' with
      | secret => cases hl
      | line b' =>
        obtain rfl := Typed.line.inj hl
        obtain ⟨rfl, rfl⟩ := Prod.mk.inj (Option.some.inj hc)
        exact ⟨_, _, rfl, rfl, hvault, hcalls, hrest.symm, houtput, herrors, rfl, rfl⟩
    | secret b₀ =>
      cases l' with
      | line => cases hl
      | secret b' =>
        have hlen : lengths b₀ = lengths b' := (Typed.secret.inj hl).symm
        obtain ⟨rfl, rfl⟩ := Prod.mk.inj (Option.some.inj hc)
        obtain rfl : asked₀' = true := Bool.not_eq_eq_eq_not.mp (Bool.or_eq_false_iff.mp hy).2
        exact ⟨_, _, rfl, congrArg Seen.line hlen, hvault, hcalls, hrest.symm, houtput, herrors, rfl, rfl⟩

/-- Nobody has slipped at the site. -/
def careful {σ : Type} (s : Site σ Typist) : Bool := !s.rest.slipped

theorem typist_leaves {σ : Type} (B : Backend σ) (envs : Nat → Env) : (B.handler envs Typist.handler).Leaves careful := by
  intro s o x s' ho hs'
  have hs' : s'.rest.slipped = false := Bool.not_eq_eq_eq_not.mp hs'
  suffices h : s.rest.slipped = false from Bool.not_eq_eq_eq_not.mpr h
  cases o with
  | state =>
    obtain ⟨rfl, rfl⟩ := Prod.mk.inj (Option.some.inj ho)
    exact hs'
  | call op =>
    obtain ⟨r, -, hr⟩ := Option.map_eq_some_iff.mp ho
    obtain ⟨rfl, rfl⟩ := Prod.mk.inj hr
    exact hs'
  | other d =>
    obtain ⟨⟨a, y⟩, hy, hr⟩ := Option.map_eq_some_iff.mp ho
    obtain ⟨rfl, rfl⟩ := Prod.mk.inj hr
    exact typist_slipped hy hs'

/-- Uses that look the same are answered alike, beside a typist who does not slip. -/
theorem notebook_tied {M : Medium} (hM : M.Blind lengths) (envs : Nat → Env) :
    Handler.Tied view Looks (((notebookBackend M).handler envs Typist.handler).within careful)
      ((notebookBackend M).handler envs Typist.handler) := by
  intro asked s s' o o' x s₁ h ho hx
  obtain ⟨hx, hcareful⟩ := Handler.within_eq_some.mp hx
  have hslipped : s₁.rest.slipped = false := Bool.not_eq_eq_eq_not.mp hcareful
  cases o with
  | state =>
    cases o' with
    | call | other => cases ho
    | state =>
      obtain ⟨rfl, rfl⟩ := Prod.mk.inj (Option.some.inj hx)
      exact ⟨_, s', rfl, congrArg Seen.state (Shelf.state_twins h.vault), h⟩
  | call op =>
    cases o' with
    | state | other => cases ho
    | call op' =>
      obtain ⟨⟨a, t₁⟩, ha, hr⟩ := Option.map_eq_some_iff.mp hx
      obtain ⟨rfl, rfl⟩ := Prod.mk.inj hr
      obtain ⟨a', t₁', ha', hseen, hveil⟩ := Shelf.call_twins hM h.vault (Use.call.inj ho) ha
      refine ⟨a', ⟨t₁', s'.calls + 1, s'.rest⟩, ?_, congrArg Seen.reply hseen, hveil, congrArg (· + 1) h.calls,
        h.lines, h.output, h.errors, h.phase, h.phase'⟩
      change (Shelf.call M (envs s'.calls) s'.vault op').map _ = _
      rw [← h.calls, ha']
      rfl
  | other d =>
    cases o' with
    | state | call => cases ho
    | other d' =>
      obtain rfl : d = d' := Use.other.inj ho
      obtain ⟨⟨a, y⟩, hy, hr⟩ := Option.map_eq_some_iff.mp hx
      obtain ⟨rfl, rfl⟩ := Prod.mk.inj hr
      cases d with
      | cout b =>
        obtain ⟨rfl, rfl⟩ := Prod.mk.inj (Option.some.inj hy)
        exact ⟨_, _, rfl, rfl, h.vault, h.calls, h.lines, congrArg (· ++ b) h.output, h.errors, rfl, rfl⟩
      | cerr b =>
        obtain ⟨rfl, rfl⟩ := Prod.mk.inj (Option.some.inj hy)
        exact ⟨_, _, rfl, rfl, h.vault, h.calls, h.lines, h.output, congrArg (· ++ b) h.errors, rfl, rfl⟩
      | getline =>
        obtain ⟨b', y', hy', hb, hlooks⟩ := typist_getline h hy hslipped
        refine ⟨b', { s' with rest := y' }, ?_, hb, hlooks⟩
        change (Typist.handler s'.rest .getline).map _ = _
        rw [hy']
        rfl

/-- A process with who sits at its terminal. -/
structure Sitting where
  launch : Launch
  typed : List Typed

namespace Sitting

/-- The process that reads what is typed. -/
def process (l : Sitting) : Launch := { l.launch with input := typedInput l.typed }

/-- Line feeds end the lines only. -/
def Whole (l : Sitting) : Prop := ∀ x ∈ l.typed, (10 : UInt8) ∉ x.bytes

/-- The same but for the secrets that are typed, which have the same lengths. -/
structure Twin (l l' : Sitting) : Prop where
  launch : l.launch = l'.launch
  typed : l.typed.map Typed.veil = l'.typed.map Typed.veil

/-- What a process does with its lines is not in its text. -/
theorem process_main (l : Sitting) : l.process.main = l.launch.main := by
  have hparse : ∀ config commands, l.process.parse config commands = l.launch.parse config commands := by
    intro config commands
    induction commands with
    | nil => rfl
    | cons c commands ih =>
      rw [Launch.parse, ih]
      rfl
  have hrun : l.process.run = l.launch.run := by
    unfold Launch.run
    simp only [hparse]
    rfl
  unfold Launch.main
  rw [hrun]

end Sitting

section Sittings

variable {σ τ : Type}

/-- The process under the hands of the typist: its status, and what it leaves. -/
def sitting (B : Backend σ) (l : Sitting) (s : σ) : Option (Nat × Site σ Typist) :=
  l.launch.main.run (B.handler l.launch.envs Typist.handler) ⟨B.restart s, 0, ⟨l.typed, [], [], false, false⟩⟩

/-- In the processes one after the other, no secret is read that was not asked for. -/
def prompted (B : Backend σ) : List Sitting → σ → Bool
  | [], _ => true
  | l :: ls, s => (sitting B l s).all fun r => !r.2.rest.slipped && prompted B ls r.2.vault

variable {B : Backend σ} {C : Backend τ} {s : σ} {l l' : Sitting} {status : Nat}

/-- What a process does under the hands of the typist, it does at a terminal with the lines. -/
theorem launch_sitting {u : Site σ Typist} (hl : l.Whole) (h : sitting B l s = some (status, u)) :
    launch B l.process s = some (⟨status, u.rest.output, u.rest.errors⟩, u.vault) := by
  obtain ⟨⟨v, calls, rest⟩, hs', hvault, -, hrest⟩ :=
    (Backend.simulates_beside types_handler B l.launch.envs).run l.launch.main
      (s := ⟨B.restart s, 0, ⟨typedInput l.typed, [], []⟩⟩) (t := ⟨B.restart s, 0, ⟨l.typed, [], [], false, false⟩⟩)
      ⟨rfl, rfl, rfl, hl, rfl, rfl⟩ h
  change (l.process.main.run (B.handler l.launch.envs Terminal.handler)
    ⟨B.restart s, 0, ⟨typedInput l.typed, [], []⟩⟩).map _ = _
  rw [l.process_main, hs']
  obtain rfl : v = u.vault := hvault
  rw [Option.map_some, hrest.output, hrest.errors]

theorem sitting_refines {R : σ → τ → Prop} (h : Backend.Refines R B C) {t : τ} {v : Site τ Typist} (hR : R s t)
    (hl : sitting C l t = some (status, v)) : ∃ u, sitting B l s = some (status, u) ∧ Backend.Alike R u v :=
  h.run l.launch.envs Typist.handler l.launch.main ⟨h.restart hR, rfl, rfl⟩ hl

variable {M : Medium} {t t' : Shelf} {u : Site Shelf Typist}

theorem sitting_defined (hinit : InitLast l.launch.commands) (t : Shelf) :
    ∃ status u, sitting (notebookBackend M) l t = some (status, u) := by
  obtain ⟨⟨status, u⟩, hu⟩ := main_defined (M := M) (s := ⟨(notebookBackend M).restart t, 0, ⟨l.typed, [], [], false, false⟩⟩)
    typist_total hinit (Shelf.settled_closed [] t.notebooks)
  exact ⟨status, u, hu⟩

/-- Sittings that differ in secrets, on notebooks that do, look the same. -/
theorem sitting_twins (hM : M.Blind lengths) (htwin : l.Twin l') (hget : ∀ c ∈ l.launch.commands, c ≠ .get)
    (ht : t.veil lengths = t'.veil lengths) (h : sitting (notebookBackend M) l t = some (status, u))
    (hu : u.rest.slipped = false) :
    ∃ u', sitting (notebookBackend M) l' t' = some (status, u') ∧ u.rest.output = u'.rest.output ∧
      u.rest.errors = u'.rest.errors ∧ u.vault.veil lengths = u'.vault.veil lengths := by
  obtain ⟨hlaunch, htyped⟩ := htwin
  have hrestart : ((notebookBackend M).restart t).veil lengths = ((notebookBackend M).restart t').veil lengths :=
    congrArg (fun s : Shelf => { s with desk := .closed [] }) ht
  have hlooks : Looks false ⟨(notebookBackend M).restart t, 0, ⟨l.typed, [], [], false, false⟩⟩
      ⟨(notebookBackend M).restart t', 0, ⟨l'.typed, [], [], false, false⟩⟩ := ⟨hrestart, rfl, htyped, rfl, rfl, rfl, rfl⟩
  have hwithin := (typist_leaves (notebookBackend M) l.launch.envs).run_within h (Bool.not_eq_eq_eq_not.mpr hu)
  obtain ⟨_, u', asked, hu', rfl, hend⟩ :=
    (notebook_tied hM l.launch.envs).run (main_tied l.launch hget false) hlooks hwithin
  refine ⟨u', ?_, hend.output, hend.errors, hend.vault⟩
  unfold sitting
  rw [← hlaunch]
  exact hu'

end Sittings

section Secrets

variable {S : Sodium} {F : Format} {p p' : Proc} {t t' : Shelf}

/-- Two sequences of sittings, without `get`, that differ in the secrets that are typed where they are asked for, over files
that differ in secrets: the processes come to their ends, return and print the same, and the files differ in secrets again. -/
theorem secrets_unshown (hS : S.Correct) (hR : S.Rejects) (hF : F.Lawful) (hW : F.Whole) {ls ls' : List Sitting}
    (htwins : List.Forall₂ Sitting.Twin ls ls') (hwhole : ∀ l ∈ ls ++ ls', l.Whole)
    (hinit : ∀ l ∈ ls, InitLast l.launch.commands) (hget : ∀ l ∈ ls, ∀ c ∈ l.launch.commands, c ≠ .get)
    (h : Represents S F p t) (h' : Represents S F p' t') (hveil : t.veil lengths = t'.veil lengths)
    (hprompted : prompted (vaultBackend S F) ls p = true) :
    ∃ outcomes q q' u u', launches (vaultBackend S F) (ls.map Sitting.process) p = some (outcomes, q) ∧
      launches (vaultBackend S F) (ls'.map Sitting.process) p' = some (outcomes, q') ∧
      Represents S F q u ∧ Represents S F q' u' ∧ u.veil lengths = u'.veil lengths := by
  have href := notebook_refines hS hR hF hW
  obtain ⟨hleft, hright⟩ := List.forall_mem_append.mp hwhole
  induction htwins generalizing p p' t t' with
  | nil => exact ⟨[], p, p', t, t', rfl, rfl, h, h', hveil⟩
  | @cons l l' ls ls' htwin htwins ih =>
    obtain ⟨hl, hleft⟩ := List.forall_mem_cons.mp hleft
    obtain ⟨hl', hright⟩ := List.forall_mem_cons.mp hright
    obtain ⟨hlast, hinit⟩ := List.forall_mem_cons.mp hinit
    obtain ⟨hno, hget⟩ := List.forall_mem_cons.mp hget
    -- the process on the notebook of the first files, and so on the files
    obtain ⟨status, u, hu⟩ := sitting_defined (M := vaultMedium S F) hlast t
    obtain ⟨v, hv, hvault, -, hrest⟩ := sitting_refines href h hu
    have hend : (!v.rest.slipped && prompted (vaultBackend S F) ls v.vault) = true := by
      have hprompted : (sitting (vaultBackend S F) l p).all _ = true := hprompted
      rwa [hv] at hprompted
    obtain ⟨hslip, hprompted⟩ := Bool.and_eq_true_iff.mp hend
    have hslipped : u.rest.slipped = false := hrest ▸ Bool.not_eq_eq_eq_not.mp hslip
    -- the other process on the notebook of the other files, and so on the files
    obtain ⟨u', hu', houtput, herrors, hveil⟩ := sitting_twins (vaultMedium_blind hS) htwin hno hveil hu hslipped
    obtain ⟨v', hv', hvault', -, hrest'⟩ := sitting_refines href h' hu'
    obtain ⟨outcomes, q, q', w, w', hq, hq', hw, hw', hveil'⟩ :=
      ih (fun x hx => (List.mem_append.mp hx).elim (hleft x) (hright x)) hinit hget hvault hvault' hveil hprompted hleft hright
    have hsame : (⟨status, v'.rest.output, v'.rest.errors⟩ : Outcome) = ⟨status, v.rest.output, v.rest.errors⟩ := by
      rw [hrest, hrest', houtput, herrors]
    refine ⟨⟨status, v.rest.output, v.rest.errors⟩ :: outcomes, q, q', w, w', ?_, ?_, hw, hw', hveil'⟩
    · rw [List.map_cons, launches, launch_sitting hl hv]
      change (launches _ (ls.map Sitting.process) v.vault).bind _ = _
      rw [hq]
      rfl
    · rw [List.map_cons, launches, launch_sitting hl' hv', hsame]
      change (launches _ (ls'.map Sitting.process) v'.vault).bind _ = _
      rw [hq']
      rfl

end Secrets

/-- A vault is created, an entry is added with the secret, its secret is replaced, and the entries are listed. -/
def sitsWith (secret secret' : Bytes) : List Sitting :=
  [⟨atVault [.init] [], [.line (ascii "pw"), .line (ascii "pw")]⟩,
    ⟨atVault [.add] [], [.line (ascii "pw"), .line (ascii "mail"), .line (ascii "me"), .secret secret, .line []]⟩,
    ⟨atVault [.update, .list] [], [.line (ascii "pw"), .line (ascii "03030303030303030303030303030303"), .line [], .line [],
      .line (ascii "y"), .secret secret']⟩]

theorem secrets_unshown_sample : ∃ outcomes q q',
    launches (vaultBackend .toy spec) ((sitsWith (ascii "hunter2") (ascii "correct")).map Sitting.process) ⟨.fresh, fun _ => none⟩ =
      some (outcomes, q) ∧
    launches (vaultBackend .toy spec) ((sitsWith (ascii "letmein") (ascii "battery")).map Sitting.process) ⟨.fresh, fun _ => none⟩ =
      some (outcomes, q') := by
  have htwins : List.Forall₂ Sitting.Twin (sitsWith (ascii "hunter2") (ascii "correct"))
      (sitsWith (ascii "letmein") (ascii "battery")) :=
    .cons ⟨rfl, rfl⟩ (.cons ⟨rfl, rfl⟩ (.cons ⟨rfl, rfl⟩ .nil))
  have hwhole : ∀ l ∈ sitsWith (ascii "hunter2") (ascii "correct") ++ sitsWith (ascii "letmein") (ascii "battery"), l.Whole := by
    unfold Sitting.Whole
    decide
  have hprompted : prompted (vaultBackend .toy spec) (sitsWith (ascii "hunter2") (ascii "correct")) ⟨.fresh, fun _ => none⟩ =
      true := by
    decide +kernel
  obtain ⟨outcomes, q, q', u, u', hq, hq', -⟩ := secrets_unshown toy_correct toy_rejects spec_lawful spec_whole htwins hwhole
    (by decide) (by decide) represents_fresh represents_fresh rfl hprompted
  exact ⟨outcomes, q, q', hq, hq'⟩

end Cli

end Passdoq
