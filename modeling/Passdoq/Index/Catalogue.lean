import Passdoq.Lib.Simulation
import Passdoq.Index.Secrecy
import Passdoq.Index.Terms

/-!
# The index as a catalogue

An index with its manager and its search engine, as a maintainer thinks of it: a collection of entries on the disk, whether the
manager is attached to it, and the collection that the engine shows, which is the one that was on the disk when it was opened.

* `Catalogue.Filing` : what a call of the manager may answer and leave; `Catalogue.Looking` : the same for the engine;
* `Selects` : the entries that a query asks for, by the terms they bear;
* `Catalogue.machine` : both; `lasting` : what is on the disk under an id stays there over calls about others.
-/

namespace Passdoq

open IndexManager

/-! ## Catalogues -/

structure Catalogue where
  disk : Disk (Multiset Entry)
  attached : Bool
  shown : Option (Multiset Entry)

/-- What a call that changes entries makes of them. -/
def IndexOp.change : IndexOp → Option (Multiset Entry → Multiset Entry)
  | .indexEntry entry => some fun entries => entry ::ₘ entries
  | .updateEntry entry => some fun entries => entry ::ₘ entries.filter fun other => other.id ≠ entry.id
  | .removeEntry id => some fun entries => entries.filter fun other => other.id ≠ id
  | _ => none

namespace Catalogue

def fresh : Catalogue := ⟨.absent, false, none⟩

/-- The entries on the disk. -/
def stored (c : Catalogue) : Multiset Entry :=
  match c.disk with
  | .holds entries => entries
  | _ => 0

def settle (c : Catalogue) (entries : Multiset Entry) : Catalogue := { c with disk := .holds entries, attached := true }

def detach (c : Catalogue) : Catalogue := { c with attached := false }

/-- What a clearing that fails may leave on the disk: all, nothing, or the directory alone. -/
def Uncleared {α : Type} (before after : Disk α) : Prop :=
  after = before ∨ after = .absent ∨ (after = .bare ∧ before ≠ .absent)

/-- The manager: what a call may answer, and what it leaves then. -/
inductive Filing (c : Catalogue) : IndexOp → Except IndexFault Bool → Catalogue → Prop
  | created (hfree : c.attached = false) : Filing c .create (.ok true) (c.settle c.stored)
  | opened (hfree : c.attached = false) (h : c.disk ≠ .bare) : Filing c .open (.ok true) (c.settle c.stored)
  | uncreated {answer : Except IndexFault Bool} (h : answer = .ok false ∨ answer = .error .filesystem) :
      Filing c .create answer c
  | unopened {answer : Except IndexFault Bool} (h : answer = .ok false ∨ (answer = .error .filesystem)) :
      Filing c .open answer c
  | closed : Filing c .close (.ok true) c.detach
  | changed {op : IndexOp} {f : Multiset Entry → Multiset Entry} (hop : op.change = some f) (h : c.attached = true) :
      Filing c op (.ok true) (c.settle (f c.stored))
  | dropped {op : IndexOp} {f : Multiset Entry → Multiset Entry} (hop : op.change = some f) : Filing c op (.ok false) c
  | flushed {op : IndexOp} {f : Multiset Entry → Multiset Entry} (hop : op.change = some f) (h : c.attached = true) :
      Filing c op (.ok false) (c.settle (f c.stored))
  | cleared : Filing c .clear (.ok true) (c.settle 0)
  | uncleared {disk : Disk (Multiset Entry)} (h : Uncleared c.disk disk) :
      Filing c .clear (.ok false) { c.detach with disk := disk }
  | rebuilt (entries : List Entry) : Filing c (.rebuildIndex entries) (.ok true) (c.settle entries)
  | stopped (entries : List Entry) (k : Nat) (h : k ≤ entries.length) :
      Filing c (.rebuildIndex entries) (.ok false) (c.settle (entries.take k))
  | unstarted (entries : List Entry) {disk : Disk (Multiset Entry)} (h : Uncleared c.disk disk) :
      Filing c (.rebuildIndex entries) (.ok false) { c.detach with disk := disk }

end Catalogue

/-! ## Queries -/

/-- A call of a query builder. -/
inductive Clause
  | addTerm (term : Bytes)
  | addPhrase (phrase : Bytes)
  | filterTag (tag : Bytes)
  | filterMetadata (key value : Bytes)

/-- The term that a clause offers: a document that has one of them is found. -/
def Clause.asked : Clause → Option Bytes
  | .addTerm term | .addPhrase term => some term
  | _ => none

/-- The term that a clause requires of every document. -/
def Clause.required : Clause → Option Bytes
  | .filterTag tag => some (tagTerm tag)
  | .filterMetadata key value => some (metadataTerm key value)
  | _ => none

/-- The terms of an entry; `terms` makes those of a text. -/
def Bears (terms : Bytes → List Bytes) (entry : Entry) (term : Bytes) : Prop :=
  term = getDocId entry.id ∨ (∃ tag ∈ entry.tags, term = tagTerm tag) ∨ ∃ text ∈ entryTexts entry, term ∈ terms text

/-- The entries that the clauses ask for; the empty term is on every entry. -/
def Selects (terms : Bytes → List Bytes) (clauses : List Clause) (entry : Entry) : Prop :=
  (clauses.filterMap Clause.asked = [] ∨ ∃ term ∈ clauses.filterMap Clause.asked, term = [] ∨ Bears terms entry term) ∧
    ∀ term ∈ clauses.filterMap Clause.required, Bears terms entry term

/-- A call of the search engine, or of `exists`. -/
inductive EngineCall
  | existsIndex
  | open
  | close
  | search (clauses : List Clause) (maxResults : Nat)
  | searchString (queryString : Bytes) (maxResults : Nat)
  | searchByTag (tag : Bytes) (maxResults : Nat)
  | searchMetadata (key value : Bytes) (maxResults : Nat)
  | suggest (start : Bytes) (maxSuggestions : Nat)

/-- The clauses of a search that is built, and how many results it may have. -/
def EngineCall.clauses : EngineCall → Option (List Clause × Nat)
  | .search clauses maxResults => some (clauses, maxResults)
  | .searchByTag tag maxResults => some ([.filterTag tag], maxResults)
  | .searchMetadata key value maxResults => some ([.filterMetadata key value], maxResults)
  | _ => none

/-- What a search that fails answers. -/
def EngineCall.nothing : EngineCall → Option Found
  | .search _ _ | .searchString _ _ | .searchByTag _ _ | .searchMetadata _ _ _ => some (.results [])
  | .suggest _ _ => some (.suggestions [])
  | _ => none

def snippet (data : Bytes) : Bytes := if data.length > 100 then data.take 97 ++ ascii "..." else data

open scoped Classical in
/-- The first `n` of the entries with `P`, in some order. -/
def Listed (entries : Multiset Entry) (P : Entry → Prop) (n : Nat) (results : List SearchResult) : Prop :=
  ∃ ranked : List Entry, (ranked : Multiset Entry) = entries.filter P ∧
    results.map (fun r => (r.entryId, r.snippet)) = (ranked.take n).map fun entry => (entry.id, snippet entry.id)

/-- The first `n` of the terms that start as asked, in their order. -/
def Suggested (terms : Bytes → List Bytes) (entries : Multiset Entry) (start : Bytes) (n : Nat)
    (suggestions : List Bytes) : Prop :=
  ∃ all : List Bytes, all.Pairwise (· < ·) ∧ suggestions = all.take n ∧
    ∀ term, term ∈ all ↔ start <+: term ∧ ∃ entry ∈ entries, Bears terms entry term

namespace Catalogue

def there (c : Catalogue) : Bool :=
  match c.disk with
  | .absent => false
  | _ => true

/-- The engine: what a call may answer, and what it leaves then; `reads` is whether the library can read. -/
inductive Looking (terms : Bytes → List Bytes) (reads : Bool) (c : Catalogue) :
    EngineCall → Except IndexFault Found → Catalogue → Prop
  | seen : Looking terms reads c .existsIndex (.ok (.bool c.there)) c
  | unseen : Looking terms reads c .existsIndex (.error .filesystem) c
  | opened {entries : Multiset Entry} (h : c.disk = .holds entries) :
      Looking terms reads c .open (.ok (.bool true)) { c with shown := some entries }
  | unopened : Looking terms reads c .open (.ok (.bool false)) c
  | closed : Looking terms reads c .close (.ok .unit) { c with shown := none }
  | unread {call : EngineCall} {answer : Found} (hcall : call.nothing = some answer) (h : c.shown = none ∨ reads = false) :
      Looking terms reads c call (.ok answer) c
  | found {call : EngineCall} {clauses : List Clause} {n : Nat} {entries : Multiset Entry} {results : List SearchResult}
      (hcall : call.clauses = some (clauses, n)) (hreads : reads = true) (hshown : c.shown = some entries)
      (h : Listed entries (Selects terms clauses) n results) : Looking terms reads c call (.ok (.results results)) c
  | typed {queryString : Bytes} {n : Nat} {entries : Multiset Entry} {P : Entry → Prop} {results : List SearchResult}
      (hreads : reads = true) (hshown : c.shown = some entries) (h : Listed entries P n results) :
      Looking terms reads c (.searchString queryString n) (.ok (.results results)) c
  | suggested {start : Bytes} {n : Nat} {entries : Multiset Entry} {suggestions : List Bytes}
      (hreads : reads = true) (hshown : c.shown = some entries) (h : Suggested terms entries start n suggestions) :
      Looking terms reads c (.suggest start n) (.ok (.suggestions suggestions)) c

end Catalogue

/-! ## Histories -/

/-- A call on an index. -/
inductive IndexCall
  | manager (op : IndexOp)
  | engine (call : EngineCall)

/-- A call that is no search. -/
def IndexCall.Plain : IndexCall → Prop
  | .manager _ => True
  | .engine call => call.nothing = none

/-- Manager and engine; `terms` makes the terms of a text, and a call comes with whether the library can read. -/
def Catalogue.machine (terms : Bytes → List Bytes) : Machine (IndexCall × Bool) (Except IndexFault Found) where
  State := Catalogue
  Step c call answer c' :=
    match call.1 with
    | .manager op => ∃ done, answer = done.map Found.bool ∧ c.Filing op done c'
    | .engine q => c.Looking terms call.2 q answer c'

/-- What a call that is acknowledged makes of an id: it has one entry, or none. -/
def IndexOp.outcome : IndexOp → Option (Bytes × Option Entry)
  | .updateEntry entry => some (entry.id, some entry)
  | .removeEntry id => some (id, none)
  | _ => none

/-- A call that changes nothing under the id: it changes another, or none. -/
def IndexCall.Spares (id : Bytes) : IndexCall → Prop
  | .manager (.indexEntry entry) | .manager (.updateEntry entry) => entry.id ≠ id
  | .manager (.removeEntry id') => id' ≠ id
  | .manager .clear | .manager (.rebuildIndex _) => False
  | _ => True

namespace Catalogue

variable {c c' : Catalogue} {op : IndexOp} {id : Bytes} {terms : Bytes → List Bytes}

/-- The entries on the disk with an id. -/
def under (c : Catalogue) (id : Bytes) : Multiset Entry := c.stored.filter fun entry => entry.id = id

theorem stored_of_holds {entries : Multiset Entry} (h : c.disk = .holds entries) : c.stored = entries := by
  rw [stored, h]

@[simp] theorem stored_settle (c : Catalogue) (entries : Multiset Entry) : (c.settle entries).stored = entries := rfl

theorem change_under {f : Multiset Entry → Multiset Entry} (hop : op.change = some f) (hspares : IndexCall.Spares id (.manager op))
    (entries : Multiset Entry) : (f entries).filter (fun entry => entry.id = id) = entries.filter fun entry => entry.id = id := by
  have hothers : ∀ id' ≠ id, (entries.filter fun other => other.id ≠ id').filter (fun entry => entry.id = id) =
      entries.filter fun entry => entry.id = id := by
    intro id' hne
    rw [Multiset.filter_filter]
    apply Multiset.filter_congr
    intro entry _
    exact and_iff_left_of_imp fun h => h ▸ hne.symm
  cases op with
  | indexEntry entry =>
    obtain rfl := Option.some.inj hop
    exact Multiset.filter_cons_of_neg entries hspares
  | updateEntry entry =>
    obtain rfl := Option.some.inj hop
    exact (Multiset.filter_cons_of_neg (p := fun other : Entry => other.id = id) _ hspares).trans (hothers _ hspares)
  | removeEntry id' =>
    obtain rfl := Option.some.inj hop
    exact hothers id' hspares
  | create | «open» | close | clear | rebuildIndex => cases hop

theorem Filing.under {answer : Except IndexFault Bool} (h : c.Filing op answer c') (hspares : IndexCall.Spares id (.manager op)) :
    c'.under id = c.under id := by
  cases h with
  | created | opened | uncreated | unopened | closed | dropped => rfl
  | changed hop | flushed hop => exact change_under hop hspares c.stored
  | cleared | uncleared | rebuilt | stopped | unstarted => exact hspares.elim

theorem Looking.disk {reads : Bool} {call : EngineCall} {answer : Except IndexFault Found}
    (h : c.Looking terms reads call answer c') : c'.disk = c.disk := by
  cases h <;> rfl

/-- What is on the disk under an id stays there over a call about others, whether the call fails or not. -/
theorem step_under {call : IndexCall × Bool} {answer : Except IndexFault Found} (hspares : call.1.Spares id)
    (h : (machine terms).Step c call answer c') : c'.under id = c.under id := by
  obtain ⟨op | q, reads⟩ := call
  · obtain ⟨done, -, hf⟩ := h
    exact hf.under hspares
  · have hdisk := Looking.disk h
    unfold under stored
    rw [hdisk]

/-- A call that is acknowledged leaves the entries of its id as it should. -/
theorem filing_outcome {kept : Option Entry} (hop : op.outcome = some (id, kept)) (h : c.Filing op (.ok true) c') :
    (c'.under id : Multiset Entry) = (kept.toList : Multiset Entry) := by
  have hnone : ∀ entries : Multiset Entry,
      (entries.filter fun other => other.id ≠ id).filter (fun entry => entry.id = id) = 0 := by
    intro entries
    rw [Multiset.filter_filter, Multiset.filter_eq_nil]
    exact fun entry _ h => h.2 h.1
  have hchange : ∃ f, op.change = some f ∧ c'.stored = f c.stored := by
    cases h with
    | changed hf => exact ⟨_, hf, rfl⟩
    | created | opened | closed | cleared | rebuilt => cases hop
    | uncreated | unopened => cases hop
  obtain ⟨f, hf, hstored⟩ := hchange
  unfold under
  rw [hstored]
  cases op with
  | updateEntry entry =>
    obtain ⟨rfl, rfl⟩ := Prod.mk.inj (Option.some.inj hop)
    obtain rfl := Option.some.inj hf
    refine (Multiset.filter_cons_of_pos (p := fun other : Entry => other.id = entry.id) _ rfl).trans ?_
    rw [hnone]
    rfl
  | removeEntry id' =>
    obtain ⟨rfl, rfl⟩ := Prod.mk.inj (Option.some.inj hop)
    obtain rfl := Option.some.inj hf
    exact hnone c.stored
  | create | «open» | close | clear | indexEntry | rebuildIndex => cases hop

/-- What was acknowledged last for an id is on the disk after any calls about others. -/
theorem lasting {before after : List ((IndexCall × Bool) × Except IndexFault Found)} {reads : Bool} {kept : Option Entry}
    (hop : op.outcome = some (id, kept)) (hspares : ∀ p ∈ after, p.1.1.Spares id)
    (hrun : (machine terms).Runs c (before ++ ((.manager op, reads), .ok (.bool true)) :: after) c') :
    c'.under id = (kept.toList : Multiset Entry) := by
  obtain ⟨c₁, -, hrun⟩ := Machine.runs_append.mp hrun
  obtain ⟨c₂, ⟨done, hdone, hf⟩, hafter⟩ := Machine.runs_cons.mp hrun
  have htrue : done = .ok true := by
    cases done with
    | error e => cases hdone
    | ok b =>
      have hb : b = true := (Found.bool.inj (Except.ok.inj hdone)).symm
      rw [hb]
  subst htrue
  refine hafter.keeps (I := fun c : Catalogue => c.under id = (kept.toList : Multiset Entry)) ?_ hspares (filing_outcome hop hf)
  intro s p s' hp hI hstep
  exact (step_under hp hstep).trans hI

end Catalogue

end Passdoq
