import Passdoq.Lib.Bytes
import Passdoq.Lib.OrdMap
import Mathlib

/-!
# The search library

`Xapian` is the part of the search library that the index and the searches call, `Xapian.Lawful` what they rely on.

* `Document` : a document as the calls that fill it; `Xapian.carries` : whether a term is on it;
* `toyXapian` : a small instance, for running examples.
-/

namespace Passdoq

/-- A document: the texts given to its term generator, each with its weight, its boolean terms, the values of its
slots and its data. -/
structure Document where
  texts : List (Bytes × Nat)
  booleans : List Bytes
  values : OrdMap Nat Bytes
  data : Bytes
  deriving DecidableEq

namespace Document

def blank : Document := ⟨[], [], ∅, []⟩

/-- `TermGenerator::index_text` of the generator set on the document. -/
def indexText (text : Bytes) (weight : Nat) (doc : Document) : Document :=
  { doc with texts := doc.texts ++ [(text, weight)] }

def addBooleanTerm (term : Bytes) (doc : Document) : Document := { doc with booleans := doc.booleans.insert term }

/-- A slot holds one value. -/
def addValue (slot : Nat) (value : Bytes) (doc : Document) : Document :=
  { doc with values := doc.values.insert slot value }

def setData (data : Bytes) (doc : Document) : Document := { doc with data := data }

end Document

structure Xapian where
  /-- the documents of a database and the changes to it -/
  Db : Type
  empty : Db
  docs : Db → List Document
  addDocument : Db → Document → Db
  replaceDocument : Db → Bytes → Document → Db
  deleteDocument : Db → Bytes → Db
  /-- the database after an error in a change or a commit, by what was committed and what was not -/
  afterError : Db → Db → Db
  /-- the words of a text as they stand in it, and a word in lower case -/
  words : Bytes → List Bytes
  lower : Bytes → Bytes
  /-- queries, and whether one matches a document of a database -/
  Query : Type
  matchAll : Query
  term : Bytes → Nat → Nat → Query
  orAll : List Query → Query
  andAll : List Query → Query
  filter : Query → Query → Query
  hits : Db → Query → Document → Bool
  /-- the matches with their percentages, best first, at most as many as asked for -/
  getMset : Db → Query → Nat → List (Document × Nat)
  /-- the terms of a database that start with a prefix -/
  allTerms : Db → Bytes → List Bytes
  /-- the query of a typed string, with the English stemmer; `none` is an error in the string -/
  parseQuery : Db → Bytes → Option Query
  stem : Bytes → Bytes
  /-- typed words: made of letters only, starting with a capital, read as an operator -/
  alphabetic : Bytes → Bool
  capitalised : Bytes → Bool
  operator : Bytes → Bool

namespace Xapian

/-- The terms that the generator makes of a text when it has no stemmer. -/
def textTerms (X : Xapian) (text : Bytes) : List Bytes := (X.words text).map X.lower

/-- The document carries the term. -/
def carries (X : Xapian) (doc : Document) (term : Bytes) : Bool :=
  doc.booleans.contains term || doc.texts.any fun text => (X.textTerms text.1).contains term

/-- A byte that no word contains. -/
def isBreak (b : UInt8) : Bool := b == 32 || b == 58

def isCapital (b : UInt8) : Bool := 65 ≤ b && b ≤ 90

/-- What is documented of the library. -/
structure Lawful (X : Xapian) : Prop where
  docs_empty : X.docs X.empty = []
  docs_add (db : X.Db) (doc : Document) : (X.docs (X.addDocument db doc)).Perm (doc :: X.docs db)
  docs_replace (db : X.Db) (term : Bytes) (doc : Document) :
    (X.docs (X.replaceDocument db term doc)).Perm (doc :: (X.docs db).filter fun d => ¬ X.carries d term)
  docs_delete (db : X.Db) (term : Bytes) :
    (X.docs (X.deleteDocument db term)).Perm ((X.docs db).filter fun d => ¬ X.carries d term)
  afterError_committed (committed pending : X.Db) : X.afterError committed pending = committed
  word_plain {text word : Bytes} (h : word ∈ X.words text) : ∀ b ∈ word, ¬ isBreak b
  lower_plain {text word : Bytes} (h : word ∈ X.words text) : ∀ b ∈ X.lower word, ¬ isBreak b ∧ ¬ isCapital b
  lower_ne_nil {text word : Bytes} (h : word ∈ X.words text) : X.lower word ≠ []
  lower_lower {text word : Bytes} (h : word ∈ X.words text) : X.lower (X.lower word) = X.lower word
  hits_matchAll (db : X.Db) (doc : Document) : X.hits db X.matchAll doc
  hits_term (db : X.Db) {term : Bytes} (h : term ≠ []) (wqf pos : Nat) (doc : Document) :
    X.hits db (X.term term wqf pos) doc = X.carries doc term
  hits_orAll (db : X.Db) (qs : List X.Query) (doc : Document) : X.hits db (X.orAll qs) doc = qs.any fun q => X.hits db q doc
  hits_andAll (db : X.Db) {qs : List X.Query} (h : qs ≠ []) (doc : Document) :
    X.hits db (X.andAll qs) doc = qs.all fun q => X.hits db q doc
  hits_filter (db : X.Db) (q r : X.Query) (doc : Document) :
    X.hits db (X.filter q r) doc = (X.hits db q doc && X.hits db r doc)
  getMset_all (db : X.Db) (q : X.Query) {n : Nat} (h : (X.docs db).length ≤ n) :
    ((X.getMset db q n).map Prod.fst).Perm ((X.docs db).filter (X.hits db q))
  alphabetic_ne_nil {word : Bytes} (h : X.alphabetic word) : word ≠ []
  alphabetic_plain {word : Bytes} (h : X.alphabetic word) : ∀ b ∈ word, ¬ isBreak b
  parse_operator (db : X.Db) {word : Bytes} (h : X.operator word) : X.parseQuery db word = none
  parse_capitalised (db : X.Db) {word : Bytes} (h : X.alphabetic word) (hop : ¬ X.operator word)
    (hcap : X.capitalised word) : X.parseQuery db word = some (X.term (X.lower word) 1 1)
  parse_uncapitalised (db : X.Db) {word : Bytes} (h : X.alphabetic word) (hop : ¬ X.operator word)
    (hcap : ¬ X.capitalised word) : X.parseQuery db word = some (X.term (90 :: X.stem (X.lower word)) 1 1)

variable {X : Xapian}

theorem Lawful.textTerm_plain (hX : X.Lawful) {text term : Bytes} (h : term ∈ X.textTerms text) :
    ∀ b ∈ term, ¬ isBreak b ∧ ¬ isCapital b := by
  obtain ⟨word, hword, rfl⟩ := List.mem_map.mp h
  exact hX.lower_plain hword

end Xapian

/-! ## A small instance -/

/-- A letter or a digit. -/
def isWordByte (b : UInt8) : Bool := (48 ≤ b && b ≤ 57) || (65 ≤ b && b ≤ 90) || (97 ≤ b && b ≤ 122)

def toLower (b : UInt8) : UInt8 := if Xapian.isCapital b then b + 32 else b

/-- Cut a text at every byte that is not in a word; pieces may be empty. -/
def toyPieces : Bytes → List Bytes
  | [] => [[]]
  | b :: bs =>
    if isWordByte b then
      match toyPieces bs with
      | [] => [[b]]
      | piece :: pieces => (b :: piece) :: pieces
    else [] :: toyPieces bs

def toyCarries (doc : Document) (term : Bytes) : Bool :=
  doc.booleans.contains term ||
    doc.texts.any fun text => (((toyPieces text.1).filter fun w => w ≠ []).map (List.map toLower)).contains term

/-- The terms of a document. -/
def toyTerms (doc : Document) : List Bytes :=
  doc.booleans ++ doc.texts.flatMap fun text => ((toyPieces text.1).filter fun w => w ≠ []).map (List.map toLower)

/-- Byte strings in order, each once. -/
def sortedTerms (terms : List Bytes) : List Bytes := (OrdMap.ofList (terms.dedup.map fun term => (term, ()))).toList.map Prod.fst

def toyTerm (term : Bytes) : (Bytes → Bool) → Bool := fun carried => term.isEmpty || carried term

def toyMatches (db : List Document) (q : (Bytes → Bool) → Bool) (n : Nat) : List (Document × Nat) :=
  ((db.filter fun doc => q (toyCarries doc)).take n).map fun doc => (doc, 100)

def toyOperators : List Bytes := ["AND", "OR", "NOT", "XOR", "NEAR", "ADJ"].map ascii

def toyCapitalised (s : Bytes) : Bool := (s.head?.map Xapian.isCapital).getD false

/-- Documents in a list, a query as what it asks of the terms of a document, words of ASCII letters and digits. -/
def toyXapian : Xapian where
  Db := List Document
  empty := []
  docs := id
  addDocument db doc := db ++ [doc]
  replaceDocument db term doc := (db.filter fun d => ¬ toyCarries d term) ++ [doc]
  deleteDocument db term := db.filter fun d => ¬ toyCarries d term
  afterError committed _ := committed
  words text := (toyPieces text).filter fun w => w ≠ []
  lower := List.map toLower
  Query := (Bytes → Bool) → Bool
  matchAll _ := true
  term t _ _ := toyTerm t
  orAll qs carried := qs.any fun q => q carried
  andAll qs carried := qs.all fun q => q carried
  filter q r carried := q carried && r carried
  hits _ q doc := q (toyCarries doc)
  getMset := toyMatches
  allTerms db start := (sortedTerms (db.flatMap toyTerms)).filter fun term => start.isPrefixOf term
  parseQuery _ s :=
    if s ∈ toyOperators then none
    else if toyCapitalised s then some (toyTerm (s.map toLower))
    else some (toyTerm (90 :: s.map toLower))
  stem := id
  alphabetic s := s ≠ [] && s.all fun b => isWordByte b && !(48 ≤ b && b ≤ 57)
  capitalised := toyCapitalised
  operator s := s ∈ toyOperators

theorem toyPieces_wordByte {text piece : Bytes} (h : piece ∈ toyPieces text) : ∀ b ∈ piece, isWordByte b := by
  induction text generalizing piece with
  | nil =>
    rw [toyPieces, List.mem_singleton] at h
    simp [h]
  | cons b bs ih =>
    unfold toyPieces at h
    split_ifs at h with hb
    · cases hp : toyPieces bs with
      | nil =>
        rw [hp] at h
        simp only [List.mem_singleton] at h
        simp [h, hb]
      | cons q qs =>
        rw [hp] at h ih
        rcases List.mem_cons.mp h with rfl | h
        · intro c hc
          rcases List.mem_cons.mp hc with rfl | hc
          · exact hb
          · exact ih List.mem_cons_self c hc
        · exact ih (List.mem_cons_of_mem _ h)
    · rcases List.mem_cons.mp h with rfl | h
      · simp
      · exact ih h

theorem not_isBreak_of_wordByte {b : UInt8} (h : isWordByte b) : ¬ Xapian.isBreak b := by
  intro hb
  have hcases : b = 32 ∨ b = 58 := by simpa [Xapian.isBreak] using hb
  rcases hcases with rfl | rfl <;> exact absurd h (by decide)

theorem toLower_spec (n : Fin 256) : isWordByte (UInt8.ofNat n) → isWordByte (toLower (UInt8.ofNat n)) ∧
    ¬ Xapian.isCapital (toLower (UInt8.ofNat n)) ∧ toLower (toLower (UInt8.ofNat n)) = toLower (UInt8.ofNat n) := by
  revert n
  decide +kernel

theorem toLower_of_wordByte {b : UInt8} (h : isWordByte b) :
    isWordByte (toLower b) ∧ ¬ Xapian.isCapital (toLower b) ∧ toLower (toLower b) = toLower b := by
  have hb : UInt8.ofNat b.toNat = b := UInt8.ofNat_toNat
  have hspec := toLower_spec ⟨b.toNat, UInt8.toNat_lt b⟩
  rw [hb] at hspec
  exact hspec h

theorem mem_toyWords {text word : Bytes} (h : word ∈ toyXapian.words text) : word ≠ [] ∧ ∀ b ∈ word, isWordByte b := by
  obtain ⟨hmem, hne⟩ := List.mem_filter.mp h
  exact ⟨of_decide_eq_true hne, toyPieces_wordByte hmem⟩

theorem toyMatches_all {db : List Document} (q : (Bytes → Bool) → Bool) {n : Nat} (h : db.length ≤ n) :
    (toyMatches db q n).map Prod.fst = db.filter fun doc => q (toyCarries doc) := by
  have hlen : (db.filter fun doc => q (toyCarries doc)).length ≤ n := (List.length_filter_le _ _).trans h
  rw [toyMatches, List.take_of_length_le hlen, List.map_map]
  exact List.map_id _

theorem toyXapian_lawful : toyXapian.Lawful where
  docs_empty := rfl
  docs_add _ _ := List.perm_append_singleton _ _
  docs_replace _ _ _ := List.perm_append_singleton _ _
  docs_delete _ _ := List.Perm.refl _
  afterError_committed _ _ := rfl
  word_plain h b hb := not_isBreak_of_wordByte ((mem_toyWords h).2 b hb)
  lower_plain h b hb := by
    obtain ⟨c, hc, rfl⟩ := List.mem_map.mp hb
    have hlow := toLower_of_wordByte ((mem_toyWords h).2 c hc)
    exact ⟨not_isBreak_of_wordByte hlow.1, hlow.2.1⟩
  lower_ne_nil h := by
    intro hnil
    exact (mem_toyWords h).1 (List.map_eq_nil_iff.mp hnil)
  lower_lower {text word} h := by
    change (word.map toLower).map toLower = word.map toLower
    rw [List.map_map]
    apply List.map_congr_left
    exact fun b hb => (toLower_of_wordByte ((mem_toyWords h).2 b hb)).2.2
  hits_matchAll _ _ := rfl
  hits_term _ {term} h _ _ doc := by
    change toyTerm term (toyCarries doc) = toyCarries doc term
    rw [toyTerm, List.isEmpty_eq_false_iff.mpr h, Bool.false_or]
  hits_orAll _ _ _ := rfl
  hits_andAll _ _ _ _ := rfl
  hits_filter _ _ _ _ := rfl
  getMset_all _ q _ h := List.Perm.of_eq (toyMatches_all q h)
  alphabetic_ne_nil h := by
    have hand := Bool.and_eq_true_iff.mp h
    exact of_decide_eq_true hand.1
  alphabetic_plain h b hb := by
    have hand := Bool.and_eq_true_iff.mp h
    have hletter := Bool.and_eq_true_iff.mp (List.all_eq_true.mp hand.2 b hb)
    exact not_isBreak_of_wordByte hletter.1
  parse_operator _ _ h := if_pos (of_decide_eq_true h)
  parse_capitalised _ _ _ hop hcap := (if_neg fun hs => hop (decide_eq_true hs)).trans (if_pos hcap)
  parse_uncapitalised _ _ _ hop hcap := (if_neg fun hs => hop (decide_eq_true hs)).trans (if_neg hcap)

end Passdoq
