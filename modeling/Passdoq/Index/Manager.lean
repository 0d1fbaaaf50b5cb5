import Passdoq.Index.Xapian
import Passdoq.Lib.Eff
import Passdoq.Lib.Run
import Passdoq.Vault.Cases
import Mathlib

/-!
# The index of the entries

`Index` is what `IndexManager` and `SearchEngine` work on: the place of the index on disk and the handle of each.
Every operation of `indexing.cpp` is an `IndexAct`.

* `entryToDocument` : the document of an entry, and the terms it carries (`carries_entryToDocument`);
* the operations, and one lemma for each that says what it has done when it returned true.
-/

namespace Passdoq

/-- What is at the path of an index: nothing, a directory without a database, or a database. -/
inductive Disk (α : Type)
  | absent
  | bare
  | holds (db : α)
  deriving DecidableEq

/-- The disk, the database that the manager writes and the one that the search engine reads. -/
structure Index (X : Xapian) where
  disk : Disk X.Db
  writer : Option X.Db
  reader : Option X.Db

/-- `Xapian::Error`, `std::filesystem::filesystem_error`, and the use of a null pointer. -/
inductive IndexFault
  | xapian
  | filesystem
  | trap
  deriving DecidableEq

def IndexFault.isXapian : IndexFault → Bool
  | .xapian => true
  | _ => false

def IndexFault.isException : IndexFault → Bool
  | .trap => false
  | _ => true

/-- How `remove_all` goes: it fails with nothing removed or with only the directory left, or removes all. -/
inductive RemoveIO
  | refused
  | broken
  | whole
  deriving DecidableEq

/-- What the world supplies to one call on the index. -/
structure IndexEnv where
  /-- whether the path can be looked at, its parents created, the database opened -/
  stat : Bool
  directories : Bool
  opens : Bool
  remove : RemoveIO
  /-- whether the `i`-th document of a call is accepted, and whether the library commits on its own behind it -/
  accepts : Nat → Bool
  flushes : Nat → Bool
  /-- whether the changes of a call can be committed -/
  commits : Bool
  /-- whether the library can read what a search asks for -/
  reads : Bool

/-- A call in which nothing fails. -/
def IndexEnv.calm : IndexEnv := ⟨true, true, true, .whole, fun _ => true, fun _ => false, true, true⟩

abbrev IndexAct (X : Xapian) := Eff (Index X) IndexFault

namespace Index

variable {X : Xapian}

/-- The database at the path; a new one is empty. -/
def stored (s : Index X) : X.Db :=
  match s.disk with
  | .holds db => db
  | _ => X.empty

/-- The disk and the manager both with the database `db`. -/
def settle (s : Index X) (db : X.Db) : Index X := { s with disk := .holds db, writer := some db }

/-- Nothing is left to commit: what the manager has open is what is on the disk. -/
def Settled (s : Index X) : Prop := ∀ db, s.writer = some db → s.disk = .holds db

variable {s : Index X} {db : X.Db}

theorem stored_of_holds (h : s.disk = .holds db) : s.stored = db := by rw [stored, h]

@[simp] theorem stored_settle : (s.settle db).stored = db := rfl

@[simp] theorem writer_settle : (s.settle db).writer = some db := rfl

@[simp] theorem reader_settle : (s.settle db).reader = s.reader := rfl

@[simp] theorem settle_settle (db' : X.Db) : (s.settle db).settle db' = s.settle db' := rfl

end Index

def Index.fresh (X : Xapian) : Index X := ⟨.absent, none, none⟩

namespace IndexManager

variable {X : Xapian}

/-- `catch (const Xapian::Error&) { return false; }`. -/
def orFalse (x : IndexAct X Bool) : IndexAct X Bool := Eff.catching IndexFault.isXapian x (pure false)

def setWriter (db : Option X.Db) : IndexAct X Unit := Eff.modify fun s => { s with writer := db }

/-! ## Documents -/

def getDocId (id : Bytes) : Bytes := ascii "Q" ++ id

def addTag (doc : Document) (tag : Bytes) : Document := (doc.indexText tag 1).addBooleanTerm (ascii "TAG:" ++ tag)

def addMetadata (doc : Document) (pair : Bytes × Bytes) : Document :=
  (doc.indexText (pair.1 ++ ascii " " ++ pair.2) 1).addValue 0 (pair.1 ++ ascii ":" ++ pair.2)

def entryToDocument (entry : Entry) : Document :=
  let doc := (Document.blank.indexText entry.name 2).indexText entry.username 1
  let doc := entry.tags.foldl addTag doc
  let doc := entry.metadata.toList.foldl addMetadata doc
  (doc.setData entry.id).addBooleanTerm (getDocId entry.id)

/-- The texts that the generator indexes for an entry. -/
def entryTexts (entry : Entry) : List Bytes :=
  entry.name :: entry.username :: (entry.tags ++ entry.metadata.toList.map fun pair => pair.1 ++ ascii " " ++ pair.2)

theorem texts_addTags (doc : Document) (tags : List Bytes) :
    (tags.foldl addTag doc).texts = doc.texts ++ tags.map fun tag => (tag, 1) := by
  induction tags generalizing doc with
  | nil => simp
  | cons tag tags ih =>
    have hone : (addTag doc tag).texts = doc.texts ++ [(tag, 1)] := rfl
    rw [List.foldl_cons, ih, hone, List.append_assoc, List.map_cons, List.singleton_append]

theorem mem_booleans_addTags (doc : Document) (tags : List Bytes) (term : Bytes) :
    term ∈ (tags.foldl addTag doc).booleans ↔ term ∈ doc.booleans ∨ ∃ tag ∈ tags, term = ascii "TAG:" ++ tag := by
  induction tags generalizing doc with
  | nil => simp
  | cons tag tags ih =>
    have hone : term ∈ (addTag doc tag).booleans ↔ term = ascii "TAG:" ++ tag ∨ term ∈ doc.booleans := List.mem_insert_iff
    rw [List.foldl_cons, ih, hone]
    simp only [List.mem_cons, exists_eq_or_imp]
    tauto

theorem texts_addMetadata (doc : Document) (pairs : List (Bytes × Bytes)) :
    (pairs.foldl addMetadata doc).texts = doc.texts ++ pairs.map fun pair => (pair.1 ++ ascii " " ++ pair.2, 1) := by
  induction pairs generalizing doc with
  | nil => simp
  | cons pair pairs ih =>
    have hone : (addMetadata doc pair).texts = doc.texts ++ [(pair.1 ++ ascii " " ++ pair.2, 1)] := rfl
    rw [List.foldl_cons, ih, hone, List.append_assoc, List.map_cons, List.singleton_append]

theorem booleans_addMetadata (doc : Document) (pairs : List (Bytes × Bytes)) :
    (pairs.foldl addMetadata doc).booleans = doc.booleans := by
  induction pairs generalizing doc with
  | nil => rfl
  | cons pair pairs ih => exact (ih (addMetadata doc pair)).trans rfl

theorem texts_entryToDocument (entry : Entry) :
    (entryToDocument entry).texts.map Prod.fst = entryTexts entry := by
  unfold entryToDocument entryTexts
  simp [Document.addBooleanTerm, Document.setData, texts_addMetadata, texts_addTags, Document.indexText, Document.blank,
    Function.comp_def]

theorem mem_booleans_entryToDocument (entry : Entry) (term : Bytes) :
    term ∈ (entryToDocument entry).booleans ↔ term = getDocId entry.id ∨ ∃ tag ∈ entry.tags, term = ascii "TAG:" ++ tag := by
  unfold entryToDocument
  simp [Document.addBooleanTerm, Document.setData, booleans_addMetadata, mem_booleans_addTags, Document.indexText,
    Document.blank, List.mem_insert_iff]

/-- The terms of a document: the id, the tags, and the words of the texts. -/
theorem carries_entryToDocument (X : Xapian) (entry : Entry) (term : Bytes) :
    X.carries (entryToDocument entry) term ↔ term = getDocId entry.id ∨ (∃ tag ∈ entry.tags, term = ascii "TAG:" ++ tag) ∨
      ∃ text ∈ entryTexts entry, term ∈ X.textTerms text := by
  rw [← texts_entryToDocument, Xapian.carries, Bool.or_eq_true, List.contains_iff_mem, mem_booleans_entryToDocument,
    or_assoc]
  simp

/-! ## Operations -/

def existsIndex (e : IndexEnv) : IndexAct X Bool := do
  if ¬ e.stat then Eff.throw .filesystem
  let s ← Eff.get
  return match s.disk with
    | .absent => false
    | _ => true

/-- The new `WritableDatabase` is made before the one that the manager holds is released, and only one gets the lock. -/
def attach (e : IndexEnv) : IndexAct X Unit := do
  let s ← Eff.get
  if ¬ e.opens ∨ s.writer.isSome then Eff.throw .xapian
  Eff.modify fun s => { s with disk := .holds s.stored, writer := some s.stored }

def create (e : IndexEnv) : IndexAct X Bool := orFalse do
  if ¬ e.directories then Eff.throw .filesystem
  attach e
  return true

def «open» (e : IndexEnv) : IndexAct X Bool := orFalse do
  if ¬ (← existsIndex e) then create e
  else
    let s ← Eff.get
    match s.disk with
    | .holds _ =>
      attach e
      return true
    | _ => Eff.throw .xapian

/-- A change of the open database. -/
def change (e : IndexEnv) (i : Nat) (f : X.Db → X.Db) : IndexAct X Unit := do
  let s ← Eff.get
  match s.writer with
  | none => Eff.throw .trap
  | some db =>
    if e.accepts i then Eff.modify fun s =>
      { s with disk := if e.flushes i then .holds (f db) else s.disk, writer := some (f db) }
    else
      setWriter (some (X.afterError s.stored db))
      Eff.throw .xapian

def commit (e : IndexEnv) : IndexAct X Unit := do
  let s ← Eff.get
  match s.writer with
  | none => Eff.throw .trap
  | some db =>
    if e.commits then Eff.modify fun s => { s with disk := .holds db }
    else
      setWriter (some (X.afterError s.stored db))
      Eff.throw .xapian

def close (e : IndexEnv) : IndexAct X Unit := do
  let s ← Eff.get
  if s.writer.isSome then
    Eff.catching IndexFault.isXapian (commit e) (pure ())
    setWriter none

/-- The body that `index_entry`, `update_entry` and `remove_entry` share: one change, committed at once. -/
def changeEntry (e : IndexEnv) (f : X.Db → X.Db) : IndexAct X Bool := do
  let s ← Eff.get
  if s.writer.isNone then return false
  orFalse do
    change e 0 f
    commit e
    return true

def indexEntry (e : IndexEnv) (entry : Entry) : IndexAct X Bool :=
  changeEntry e fun db => X.addDocument db (entryToDocument entry)

def updateEntry (e : IndexEnv) (entry : Entry) : IndexAct X Bool :=
  changeEntry e fun db => X.replaceDocument db (getDocId entry.id) (entryToDocument entry)

def removeEntry (e : IndexEnv) (id : Bytes) : IndexAct X Bool :=
  changeEntry e fun db => X.deleteDocument db (getDocId id)

def removeAll (e : IndexEnv) : IndexAct X Unit := do
  match e.remove with
  | .refused => Eff.throw .filesystem
  | .broken =>
    Eff.modify fun s => { s with disk := .bare }
    Eff.throw .filesystem
  | .whole => Eff.modify fun s => { s with disk := .absent }

def clear (e : IndexEnv) : IndexAct X Bool := do
  close e
  Eff.catching IndexFault.isException (do
    if ← existsIndex e then removeAll e
    create e) (pure false)

/-- The loop of `rebuild_index`, at its `i`-th entry. -/
def addEntries (e : IndexEnv) (i : Nat) : List Entry → IndexAct X Unit
  | [] => pure ()
  | entry :: entries => do
    change e i fun db => X.addDocument db (entryToDocument entry)
    addEntries e (i + 1) entries

def rebuildIndex (e : IndexEnv) (entries : List Entry) : IndexAct X Bool := do
  if ¬ (← clear e) then return false
  let s ← Eff.get
  if s.writer.isNone then
    if ¬ (← create e) then return false
  orFalse do
    addEntries e 0 entries
    commit e
    return true

/-! ## What a call that returns true has done -/

variable {e : IndexEnv} {s s' : Index X}

theorem orFalse_true {x : IndexAct X Bool} : orFalse x s = (.ok true, s') ↔ x s = (.ok true, s') :=
  Eff.catching_eq_ok (by decide)

/-- A database is opened, or the lock or another error keeps it from that. -/
theorem attach_cases (e : IndexEnv) (s : Index X) :
    (e.opens = true ∧ s.writer = none ∧ attach e s = (.ok (), s.settle s.stored)) ∨
      ((e.opens = false ∨ s.writer.isSome) ∧ attach e s = (.error .xapian, s)) := by
  unfold attach
  cases ho : e.opens <;> cases hw : s.writer <;> simp [hw, Index.settle]

theorem create_true (h : create e s = (.ok true, s')) : s' = s.settle s.stored := by
  rw [create, orFalse_true] at h
  cases hd : e.directories <;> rcases attach_cases e s with ⟨-, -, ha⟩ | ⟨-, ha⟩ <;> simp [hd, ha] at h
  exact h.symm

theorem open_true (h : IndexManager.open e s = (.ok true, s')) : s' = s.settle s.stored := by
  rw [IndexManager.open, orFalse_true] at h
  cases hs : e.stat <;> simp [hs, existsIndex] at h
  cases hd : s.disk with
  | absent =>
    simp only [hd] at h
    exact create_true h
  | bare => simp [hd] at h
  | holds db =>
    rcases attach_cases e s with ⟨-, -, ha⟩ | ⟨-, ha⟩ <;> simp [hd, ha] at h
    exact h.symm

theorem change_ok {f : X.Db → X.Db} {i : Nat} (h : change e i f s = (.ok (), s')) :
    ∃ db, s.writer = some db ∧
      s' = { s with disk := if e.flushes i then .holds (f db) else s.disk, writer := some (f db) } := by
  simp only [change, Eff.bind_apply, Eff.get_apply] at h
  cases hw : s.writer with
  | none => simp [hw] at h
  | some db =>
    cases ha : e.accepts i <;> simp [hw, ha, setWriter] at h
    exact ⟨db, rfl, h.symm⟩

theorem commit_ok (h : commit e s = (.ok (), s')) : ∃ db, s.writer = some db ∧ s' = s.settle db := by
  simp only [commit, Eff.bind_apply, Eff.get_apply] at h
  cases hw : s.writer with
  | none => simp [hw] at h
  | some db =>
    cases hc : e.commits <;> simp [hw, hc, setWriter] at h
    refine ⟨db, rfl, ?_⟩
    rw [← h, Index.settle, ← hw]

theorem changeEntry_true {f : X.Db → X.Db} (h : changeEntry e f s = (.ok true, s')) :
    ∃ db, s.writer = some db ∧ s' = s.settle (f db) := by
  simp only [changeEntry, Eff.bind_apply, Eff.get_apply] at h
  split_ifs at h with hw
  · cases h
  · rw [orFalse_true, Eff.bind_eq_ok] at h
    obtain ⟨_, t, hchange, h⟩ := h
    obtain ⟨_, t', hcommit, h⟩ := Eff.bind_eq_ok.mp h
    obtain ⟨db, hdb, rfl⟩ := change_ok hchange
    obtain ⟨db', hdb', rfl⟩ := commit_ok hcommit
    cases hdb'
    cases h
    exact ⟨db, hdb, rfl⟩

theorem close_ok (h : close e s = (.ok (), s')) (hw : ∀ db, s.writer = some db → s.disk = .holds db) :
    s' = { s with writer := none } := by
  simp only [close, Eff.bind_apply, Eff.get_apply] at h
  cases hdb : s.writer with
  | none =>
    simp [hdb] at h
    rw [← h, ← hdb]
  | some db =>
    have hdisk := hw db hdb
    cases hc : e.commits <;> simp [hdb, Eff.catching_apply, commit, hc, setWriter, IndexFault.isXapian] at h
    · exact h.symm
    · rw [← h, hdisk]

theorem removeAll_ok (h : removeAll e s = (.ok (), s')) : s' = { s with disk := .absent } := by
  unfold removeAll at h
  cases hr : e.remove <;> simp [hr] at h
  exact h.symm

theorem existsIndex_ok {b : Bool} (h : existsIndex e s = (.ok b, s')) : s' = s ∧ (b = false → s.disk = .absent) := by
  cases hs : e.stat <;> simp [existsIndex, hs] at h
  refine ⟨h.2.symm, fun hb => ?_⟩
  rw [← h.1] at hb
  cases hd : s.disk <;> simp [hd] at hb ⊢

theorem close_reader (h : close e s = (.ok (), s')) : s'.reader = s.reader := by
  simp only [close, Eff.bind_apply, Eff.get_apply] at h
  cases hdb : s.writer with
  | none =>
    simp [hdb] at h
    rw [← h]
  | some db =>
    cases hc : e.commits <;> simp [hdb, Eff.catching_apply, commit, hc, setWriter, IndexFault.isXapian] at h <;> rw [← h]

theorem clear_true (h : clear e s = (.ok true, s')) : s' = s.settle X.empty := by
  obtain ⟨_, t, hclose, h⟩ := Eff.bind_eq_ok.mp h
  rw [Eff.catching_eq_ok (by decide)] at h
  obtain ⟨there, t', hexists, h⟩ := Eff.bind_eq_ok.mp h
  obtain ⟨rfl, habsent⟩ := existsIndex_ok hexists
  have ht : t'.reader = s.reader := close_reader hclose
  have hdone : ∃ t'', t''.disk = .absent ∧ t''.reader = s.reader ∧ create e t'' = (.ok true, s') := by
    cases there with
    | false => exact ⟨t', habsent rfl, ht, h⟩
    | true =>
      obtain ⟨_, t'', hremove, h⟩ := Eff.bind_eq_ok.mp h
      have ht'' := removeAll_ok hremove
      exact ⟨t'', by rw [ht''], by rw [ht'', ← ht], h⟩
  obtain ⟨t'', hdisk, hreader, hcreate⟩ := hdone
  rw [create_true hcreate, Index.settle, Index.settle, Index.stored, hdisk, hreader]

def addAll (X : Xapian) (db : X.Db) (entries : List Entry) : X.Db :=
  entries.foldl (fun db entry => X.addDocument db (entryToDocument entry)) db

theorem addAll_docs (hX : X.Lawful) (db : X.Db) (entries : List Entry) :
    (X.docs (addAll X db entries)).Perm (X.docs db ++ entries.map entryToDocument) := by
  induction entries generalizing db with
  | nil => simp [addAll]
  | cons entry entries ih =>
    have hadd := (hX.docs_add db (entryToDocument entry)).append_right (entries.map entryToDocument)
    exact ((ih _).trans hadd).trans List.perm_middle.symm

theorem addEntries_ok {i : Nat} {entries : List Entry} {db : X.Db} (h : addEntries e i entries s = (.ok (), s'))
    (hw : s.writer = some db) : ∃ disk, s' = { s with disk := disk, writer := some (addAll X db entries) } := by
  induction entries generalizing i s db with
  | nil =>
    obtain rfl : s = s' := (Prod.mk.inj h).2
    refine ⟨s.disk, ?_⟩
    rw [addAll, List.foldl_nil, ← hw]
  | cons entry entries ih =>
    obtain ⟨_, t, hchange, h⟩ := Eff.bind_eq_ok.mp h
    obtain ⟨db', hdb', rfl⟩ := change_ok hchange
    rw [hw, Option.some.injEq] at hdb'
    subst hdb'
    have hrest := ih h rfl
    exact hrest

theorem rebuildIndex_true {entries : List Entry} (h : rebuildIndex e entries s = (.ok true, s')) :
    s' = s.settle (addAll X X.empty entries) := by
  obtain ⟨cleared, t, hclear, h⟩ := Eff.bind_eq_ok.mp h
  cases cleared with
  | false => cases h
  | true =>
    have ht := clear_true hclear
    subst ht
    obtain ⟨t, _, hget, h⟩ := Eff.bind_eq_ok.mp h
    cases hget
    have hopen : ¬ (s.settle X.empty).writer.isNone := by simp
    replace h := (congrFun (if_neg hopen) _).symm.trans h
    rw [orFalse_true] at h
    obtain ⟨_, t, hadd, h⟩ := Eff.bind_eq_ok.mp h
    obtain ⟨_, t', hcommit, h⟩ := Eff.bind_eq_ok.mp h
    obtain ⟨disk, ht⟩ := addEntries_ok hadd rfl
    obtain ⟨db, hdb, rfl⟩ := commit_ok hcommit
    subst ht
    cases hdb
    cases h
    rfl

end IndexManager

/-! ## Sample entries -/

def githubEntry : Entry :=
  { Entry.blank with
    id := ascii "entry-1", name := ascii "GitHub Account", username := ascii "developer",
    metadata := OrdMap.ofList [(ascii "url", ascii "example.com")], tags := [ascii "work", ascii "dev"] }

def gmailEntry : Entry :=
  { Entry.blank with
    id := ascii "entry-2", name := ascii "Gmail Account", username := ascii "user", tags := [ascii "personal", ascii "email"] }

end Passdoq
