import Passdoq.Vault.Notebook

/-!
# Clients of a vault

* `Shelf.Settled` : the notebook in the file is the one on the desk;
* `Shelf.notebook_total`, `Shelf.notebook_unread` : where the operations of a notebook have a meaning;
* `client_notebook` : what a client does with a vault it could as well do with the notebook.
-/

namespace Passdoq
open Msgpack Crypto Vault

variable {S : Sodium} {F : Format} {e : Env} {p : Proc} {t t' : Shelf} {path passphrase : Bytes}

/-! ## Where the notebook has a meaning -/

def Desk.clasp? : Desk → Option Clasp
  | .closed _ => none
  | .locked _ clasp | .unlocked _ clasp _ => some clasp

/-- The notebook in the file is the one on the desk. -/
def Shelf.Settled (t : Shelf) : Prop :=
  ∀ clasp nb, t.desk.clasp? = some clasp → t.notebooks t.desk.path = some nb → nb.clasp = clasp

/-- The operations that make another clasp. -/
def Op.reclasps : Op → Bool
  | .create _ _ | .rekey _ => true
  | _ => false

namespace Shelf

variable {M : Medium} {op : Op}

theorem found_some {nb : Notebook} (h : t.found e path = some nb) : t.notebooks path = some nb := by
  rw [found, Option.ite_none_right_eq_some] at h
  exact h.2

theorem settled_closed (path : Bytes) (notebooks : Bytes → Option Notebook) : Settled ⟨.closed path, notebooks⟩ := nofun

/-- A notebook that was found is settled when it lies on the desk. -/
theorem settled_locked {nb : Notebook} (h : t.found e path = some nb) :
    Settled { t with desk := .locked path nb.clasp } := by
  intro clasp nb' hclasp hnb
  have hsame : some nb = some nb' := (found_some h).symm.trans hnb
  rw [← Option.some.inj hsame]
  exact Option.some.inj hclasp

theorem Settled.withDesk (h : t.Settled) {d : Desk} (hpath : d.path = t.desk.path) (hclasp : d.clasp? = t.desk.clasp?) :
    Settled { t with desk := d } := by
  intro clasp nb hc hnb
  rw [hclasp] at hc
  change t.notebooks d.path = some nb at hnb
  rw [hpath] at hnb
  exact h clasp nb hc hnb

theorem Settled.save (h : t.Settled) : (t.save M e).2.Settled := by
  obtain ⟨desk, notebooks⟩ := t
  unfold Shelf.save
  cases desk with
  | unlocked path clasp es =>
    -- what is at the path afterwards, where a write was begun
    have hput : ∀ nb : Option Notebook, (∀ n, nb = some n → n.clasp = clasp) →
        Settled ⟨.unlocked path clasp es, Function.update notebooks path nb⟩ := by
      intro nb hnb clasp' n hc hn
      change Function.update notebooks path nb path = some n at hn
      rw [Function.update_self] at hn
      exact (hnb n hn).trans (Option.some.inj hc)
    dsimp only
    cases M.size e.nonce clasp es with
    | none => exact h
    | some n =>
      cases e.write with
      | refused => exact h
      | short k good =>
        refine hput _ fun nb hnb => ?_
        rw [Option.ite_none_right_eq_some] at hnb
        rw [← Option.some.inj hnb.2]
      | full good =>
        refine hput _ fun nb hnb => ?_
        rw [← Option.some.inj hnb]
  | _ => exact h

/-- A notebook that is made where there was none is settled. -/
theorem Settled.create (h : t.Settled) (hnone : t.notebooks path = none) : (t.create M e path passphrase).2.Settled := by
  obtain ⟨desk, notebooks⟩ := t
  unfold Shelf.create
  cases desk with
  | closed path₀ =>
    dsimp only
    split_ifs
    · refine Settled.save fun clasp nb hclasp hnb => ?_
      change notebooks path = some nb at hnb
      cases hnb.symm.trans hnone
    · exact settled_closed path notebooks
  | _ => exact h

theorem load_settled (h : t.Settled) : ∃ b t', t.load e = some (b, t') ∧ t'.Settled := by
  obtain ⟨desk, notebooks⟩ := t
  unfold Shelf.load
  cases hn : Shelf.found e ⟨desk, notebooks⟩ desk.path with
  | none => exact ⟨false, _, rfl, h⟩
  | some nb =>
    cases desk with
    | closed path => exact ⟨true, _, rfl, h⟩
    | locked path clasp => exact ⟨true, _, rfl, settled_locked hn⟩
    | unlocked path clasp es =>
      have hsame : nb.clasp = clasp := h clasp nb rfl (found_some hn)
      refine ⟨true, _, if_pos hsame, ?_⟩
      exact Settled.withDesk h rfl rfl

theorem unlock_settled (h : t.Settled) : ∃ a t', t.unlock M e passphrase = some (a, t') ∧ t'.Settled := by
  obtain ⟨desk, notebooks⟩ := t
  unfold Shelf.unlock
  cases desk with
  | locked path clasp =>
    dsimp only
    split_ifs with ha ho
    · have hopen : Settled ⟨.unlocked path clasp ∅, notebooks⟩ := h.withDesk (d := .unlocked path clasp ∅) rfl rfl
      obtain ⟨b, t', hl, ht⟩ := load_settled (e := e) hopen
      refine ⟨.ok b, t', ?_, ht⟩
      rw [hl]
      rfl
    · exact ⟨_, _, rfl, h⟩
    · exact ⟨_, _, rfl, h⟩
  | _ => exact ⟨_, _, rfl, h⟩

theorem Settled.onEntries {α : Type} (h : t.Settled) (f : OrdMap Bytes Entry → Except Exn α × OrdMap Bytes Entry) :
    (t.onEntries f).2.Settled := by
  obtain ⟨desk, notebooks⟩ := t
  unfold Shelf.onEntries
  cases desk with
  | unlocked path clasp es => exact h.withDesk (d := .unlocked path clasp _) rfl rfl
  | _ => exact h

/-- From a settled desk every operation that makes no other clasp has a meaning, and leaves the desk settled. -/
theorem notebook_total (M : Medium) : (notebookBackend M).Total Settled fun op => op.reclasps = false := by
  intro e t op h hop
  cases op with
  | create path passphrase => cases hop
  | rekey newDataKey => cases hop
  | «open» path =>
    refine ⟨_, _, rfl, ?_⟩
    obtain ⟨desk, notebooks⟩ := t
    unfold Shelf.open
    cases desk with
    | closed path₀ =>
      cases hn : Shelf.found e ⟨.closed path₀, notebooks⟩ path with
      | none => exact settled_closed path notebooks
      | some nb => exact settled_locked hn
    | _ => exact h
  | unlock passphrase => exact unlock_settled h
  | lock =>
    refine ⟨_, _, rfl, ?_⟩
    obtain ⟨desk, notebooks⟩ := t
    unfold Shelf.lock
    cases desk with
    | unlocked path clasp es => exact h.withDesk (d := .locked path clasp) rfl rfl
    | _ => exact h
  | load =>
    obtain ⟨b, t', hl, ht⟩ := load_settled (e := e) h
    refine ⟨.ok b, t', ?_, ht⟩
    change (t.load e).map _ = _
    rw [hl]
    rfl
  | save => exact ⟨_, _, rfl, h.save⟩
  | _ => exact ⟨_, _, rfl, h.onEntries _⟩

/-- Every operation has a meaning but for the two that read the entries of the file. -/
theorem notebook_unread (M : Medium) : (notebookBackend M).Total (fun _ => True) fun op => op.readsEntries = false := by
  intro e t op _ hop
  cases op with
  | unlock passphrase => cases hop
  | load => cases hop
  | _ => exact ⟨_, _, rfl, trivial⟩

end Shelf

/-- The client creates and rekeys nothing. -/
abbrev Keeping {Ω α : Type} {A : Ω → Type} (x : Throwing Ω A α) : Prop := Calls (fun op => op.reclasps = false) x

theorem keeping_call {Ω : Type} {A : Ω → Type} (op : Op) (hop : op.reclasps = false) :
    Keeping (Throwing.call op : Throwing Ω A op.Result) := calls_call hop

/-- Whatever a client does with a vault, it gets what it would get from the notebook, wherever that has a meaning; and it has
one for every client that creates and rekeys nothing, from a settled desk on. -/
theorem client_notebook (hS : S.Correct) (hR : S.Rejects) (hF : F.Lawful) (hW : F.Whole) {Ω ω α : Type} {A : Ω → Type}
    (envs : Nat → Env) (g : Handler Ω A ω) (client : Program (Use Ω) (Use.Answer A) α) (h : Represents S F p t) (n : Nat)
    (w : ω) :
    (∀ a t', client.run ((notebookBackend (vaultMedium S F)).handler envs g) ⟨t, n, w⟩ = some (a, t') →
      ∃ p', client.run ((vaultBackend S F).handler envs g) ⟨p, n, w⟩ = some (a, ⟨p', t'.calls, t'.rest⟩) ∧
        Represents S F p' t'.vault) ∧
    (t.Settled → client.Only (Use.Calls fun op => op.reclasps = false) → (∀ w o, (g w o).isSome) →
      ∃ a t', client.run ((notebookBackend (vaultMedium S F)).handler envs g) ⟨t, n, w⟩ = some (a, t') ∧
        t'.vault.Settled) := by
  constructor
  · intro a t' hrun
    obtain ⟨⟨p', calls, rest⟩, hp', hrep, rfl, rfl⟩ :=
      (notebook_refines hS hR hF hW).run envs g client (s := ⟨p, n, w⟩) ⟨h, rfl, rfl⟩ hrun
    exact ⟨p', hp', hrep⟩
  · intro hsettled honly hg
    exact Program.run_total ((Shelf.notebook_total _).handler envs hg) honly hsettled

/-- A vault is created, an entry is added, the vault is saved, locked and unlocked, and the entry is read. -/
def addedAndRead : Program (Use Empty) (Use.Answer fun _ => Unit) (Except Exn Entry) := do
  let _ ← Program.perform (Use.call (.create (ascii "vault") (ascii "passphrase")))
  let _ ← Program.perform (Use.call (.addEntry { Entry.blank with name := ascii "mail" }))
  let _ ← Program.perform (Use.call .save)
  let _ ← Program.perform (Use.call .lock)
  let _ ← Program.perform (Use.call (.unlock (ascii "passphrase")))
  Program.perform (Use.call (.getEntry (generateId (Block.const 16 2))))

theorem represents_fresh : Represents S F ⟨.fresh, fun _ => none⟩ ⟨.closed [], fun _ => none⟩ :=
  ⟨⟨rfl, rfl, rfl⟩, fun _ data map hdata => by cases hdata⟩

/-- It is what it was. -/
theorem client_notebook_added : ∃ entry p', entry.name = ascii "mail" ∧
    addedAndRead.run ((vaultBackend .toy spec).handler (fun n => Env.calm (n + 1).toUInt8 .epoch) fun (_ : Unit) o => nomatch o)
      ⟨⟨.fresh, fun _ => none⟩, 0, ()⟩ = some (.ok entry, p') := by
  have hcheck : ((addedAndRead.run ((notebookBackend (vaultMedium .toy spec)).handler
      (fun n => Env.calm (n + 1).toUInt8 .epoch) fun (_ : Unit) o => nomatch o)
      ⟨⟨.closed [], fun _ => none⟩, 0, ()⟩).map fun r => r.1.toOption.map Entry.name) = some (some (ascii "mail")) := by
    decide +kernel
  obtain ⟨⟨r, t'⟩, hrun, hname⟩ := Option.map_eq_some_iff.mp hcheck
  obtain ⟨entry, hentry, hname⟩ := Option.map_eq_some_iff.mp hname
  obtain ⟨p', hp', -⟩ := (client_notebook toy_correct toy_rejects spec_lawful spec_whole _ _ addedAndRead represents_fresh
    0 ()).1 r t' hrun
  cases r with
  | error x => cases hentry
  | ok entry' =>
    obtain rfl := Option.some.inj hentry
    exact ⟨entry', _, hname, hp'⟩

end Passdoq
