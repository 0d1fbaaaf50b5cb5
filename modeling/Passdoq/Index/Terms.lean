import Passdoq.Index.Search

/-!
# Kinds of terms

Ids, tags, words of texts and metadata filters are all terms of one database, told apart by what they begin with.

* `first_avoids_iff` : when the first elements of a sorted list avoid some of its elements;
* `Xapian.Enumerates` : what is documented of `allterms_begin`;
* `metadata_apart_iff` : when a metadata filter is no id term and no tag term; `suggestions_iff` : when suggestions are words;
* `KeptApart` : both, for an index of some entries.
-/

namespace Passdoq

/-! ## The first elements of a sorted list -/

section First

variable {α : Type} [LinearOrder α] {l : List α} {n : Nat} {avoided : α → Prop} {before : α → Finset α}

/-- The first `n` elements avoid some elements exactly when each of these stands behind at least `n` others. -/
theorem first_avoids_iff (hl : l.Pairwise (· < ·))
    (hbefore : ∀ x ∈ l, avoided x → ∀ w, w ∈ before x ↔ w ∈ l ∧ ¬ avoided w ∧ w < x) :
    (∀ x ∈ l.take n, ¬ avoided x) ↔ ∀ x ∈ l, avoided x → n ≤ (before x).card := by
  constructor
  · intro h x hx havoided
    have hsplit := List.take_append_drop n l
    have hrest : x ∈ l.drop n := by
      rw [← hsplit] at hx
      exact (List.mem_append.mp hx).resolve_left fun hfirst => h x hfirst havoided
    have hpairs : (l.take n ++ l.drop n).Pairwise (· < ·) := hsplit.symm ▸ hl
    obtain ⟨hfirst, -, hcross⟩ := List.pairwise_append.mp hpairs
    have hsub : (l.take n).toFinset ⊆ before x := by
      intro w hw
      have hw := List.mem_toFinset.mp hw
      exact (hbefore x hx havoided w).mpr ⟨List.mem_of_mem_take hw, h w hw, hcross w hw x hrest⟩
    have hlong : n ≤ l.length := by
      by_contra hshort
      rw [List.drop_of_length_le (by omega)] at hrest
      cases hrest
    have hcard := Finset.card_le_card hsub
    rwa [List.toFinset_card_of_nodup (hfirst.imp ne_of_lt), List.length_take_of_le hlong] at hcard
  · intro h x hx havoided
    obtain ⟨front, back, hsplit⟩ := List.append_of_mem hx
    have hwhole : l = front ++ x :: (back ++ l.drop n) := by
      rw [← List.cons_append, ← List.append_assoc, ← hsplit, List.take_append_drop]
    have hmem : x ∈ l := List.mem_of_mem_take hx
    -- what comes before `x` in the order stands in front of it
    have hsub : before x ⊆ front.toFinset := by
      intro w hw
      obtain ⟨hwl, -, hlt⟩ := (hbefore x hmem havoided w).mp hw
      rw [hwhole] at hwl hl
      rcases List.mem_append.mp hwl with hfront | hrest
      · exact List.mem_toFinset.mpr hfront
      · obtain ⟨-, hpairs, -⟩ := List.pairwise_append.mp hl
        rcases List.mem_cons.mp hrest with rfl | hrest
        · exact absurd hlt (lt_irrefl w)
        · exact absurd hlt (lt_asymm ((List.pairwise_cons.mp hpairs).1 w hrest))
    have hcard := (h x hmem havoided).trans (Finset.card_le_card hsub)
    have hlength := congrArg List.length hsplit
    rw [List.length_append, List.length_cons, List.length_take] at hlength
    have hfront := front.toFinset_card_le
    omega

end First

/-! ## Terms -/

namespace Xapian

/-- What is documented of the enumeration of terms: it goes through those that documents carry, in the order of their bytes. -/
structure Enumerates (X : Xapian) : Prop where
  sorted (db : X.Db) (start : Bytes) : (X.allTerms db start).Pairwise (· < ·)
  mem_allTerms (db : X.Db) (start term : Bytes) :
    term ∈ X.allTerms db start ↔ start <+: term ∧ ∃ doc ∈ X.docs db, X.carries doc term

end Xapian

open IndexManager SearchEngine

variable {X : Xapian} {e : IndexEnv} {s : Index X} {db : X.Db} {entries : List Entry} {key value start term : Bytes} {n : Nat}

/-- The term that `filter_metadata` asks for. -/
def metadataTerm (key value : Bytes) : Bytes := key ++ ascii ":" ++ value

def tagTerm (tag : Bytes) : Bytes := ascii "TAG:" ++ tag

/-- An id as `generate_id` makes them. -/
def HexId (id : Bytes) : Prop := ∀ c ∈ id, ∃ n < 16, c = Vault.hexDigit n

/-- The words of the indexed text, as they are terms. -/
def indexedWords (X : Xapian) (entries : List Entry) : List Bytes := (entries.flatMap entryTexts).flatMap X.textTerms

/-- The id terms and the tag terms of the entries. -/
def Internal (entries : List Entry) (term : Bytes) : Prop :=
  ∃ entry ∈ entries, term = getDocId entry.id ∨ ∃ tag ∈ entry.tags, term = tagTerm tag

theorem carried_iff (hdocs : (X.docs db).Perm (entries.map entryToDocument)) (term : Bytes) :
    (∃ doc ∈ X.docs db, X.carries doc term = true) ↔ Internal entries term ∨ term ∈ indexedWords X entries := by
  have hentries : (∃ doc ∈ X.docs db, X.carries doc term = true) ↔
      ∃ entry ∈ entries, X.carries (entryToDocument entry) term = true := by
    simp only [hdocs.mem_iff, List.mem_map, exists_exists_and_eq_and]
  rw [hentries]
  unfold Internal indexedWords tagTerm
  simp only [carries_entryToDocument, List.mem_flatMap]
  constructor
  · rintro ⟨entry, hentry, hid | htag | ⟨text, htext, hword⟩⟩
    · exact .inl ⟨entry, hentry, .inl hid⟩
    · exact .inl ⟨entry, hentry, .inr htag⟩
    · exact .inr ⟨text, ⟨entry, hentry, htext⟩, hword⟩
  · rintro (⟨entry, hentry, hid | htag⟩ | ⟨text, ⟨entry, hentry, htext⟩, hword⟩)
    · exact ⟨entry, hentry, .inl hid⟩
    · exact ⟨entry, hentry, .inr (.inl htag)⟩
    · exact ⟨entry, hentry, .inr (.inr ⟨text, htext, hword⟩)⟩

theorem word_not_marked (hX : X.Lawful) (h : term ∈ indexedWords X entries) :
    (∀ id, term ≠ getDocId id) ∧ ∀ tag, term ≠ tagTerm tag := by
  obtain ⟨text, -, hterm⟩ := List.mem_flatMap.mp h
  have hplain := hX.textTerm_plain hterm
  constructor
  · rintro id rfl
    exact absurd rfl (hplain 81 List.mem_cons_self).2
  · rintro tag rfl
    exact absurd rfl (hplain 84 List.mem_cons_self).2

theorem word_not_internal (hX : X.Lawful) (h : term ∈ indexedWords X entries) : ¬ Internal entries term := by
  obtain ⟨hid, htag⟩ := word_not_marked hX h
  rintro ⟨entry, -, hterm | ⟨tag, -, hterm⟩⟩
  · exact hid entry.id hterm
  · exact htag tag hterm

/-! ## Metadata filters -/

/-- The metadata filter is no tag term and no id term of the entries. -/
def MetadataApart (entries : List Entry) (key value : Bytes) : Prop :=
  (∀ tag, metadataTerm key value ≠ tagTerm tag) ∧ ∀ entry ∈ entries, metadataTerm key value ≠ getDocId entry.id

/-- A colon is in no id term. -/
theorem metadataTerm_ne_docId {id : Bytes} (hid : HexId id) : metadataTerm key value ≠ getDocId id := by
  intro h
  have hmem : (58 : UInt8) ∈ getDocId id := by
    rw [← h]
    simp [metadataTerm, ascii]
  rcases List.mem_append.mp hmem with hmem | hmem
  · exact absurd hmem (by decide)
  · obtain ⟨n, hn, heq⟩ := hid 58 hmem
    have hdigits : ∀ n < 16, (58 : UInt8) ≠ Vault.hexDigit n := by decide
    exact hdigits n hn heq

/-- A filter is apart from the other terms exactly when its key is not `TAG` and does not begin with `TAG:`. -/
theorem metadata_apart_iff (hids : ∀ entry ∈ entries, HexId entry.id) :
    MetadataApart entries key value ↔ ¬ ascii "TAG:" <+: key ++ ascii ":" := by
  constructor
  · rintro ⟨htags, -⟩ ⟨rest, hrest⟩
    apply htags (rest ++ value)
    unfold metadataTerm tagTerm
    rw [← hrest, List.append_assoc]
  · intro hkey
    refine ⟨fun tag htag => hkey ?_, fun entry hentry => metadataTerm_ne_docId (hids entry hentry)⟩
    rcases List.append_eq_append_iff.mp htag with ⟨rest, htag, -⟩ | ⟨rest, hkey, -⟩
    · -- the key and its colon would end within `TAG:`, where the only colon is the last byte
      rcases List.eq_nil_or_concat rest with rfl | ⟨rest, c, rfl⟩
      · rw [htag, List.append_nil]
      · have hfour : ascii "TAG:" = ascii "TAG" ++ [58] := by decide +kernel
        rw [hfour, List.concat_eq_append, ← List.append_assoc] at htag
        have hthree : ascii "TAG" = key ++ ascii ":" ++ rest := (List.append_inj' htag rfl).1
        have hcolon : (58 : UInt8) ∈ ascii "TAG" := by
          rw [hthree]
          simp [ascii]
        exact absurd hcolon (by decide +kernel)
    · exact ⟨rest, hkey.symm⟩

/-! ## Suggestions -/

/-- At most `n` words of the indexed text that start as asked, none of them an id term or a tag term. -/
def SuggestsWords (X : Xapian) (entries : List Entry) (start : Bytes) (n : Nat) (suggestions : List Bytes) : Prop :=
  suggestions.length ≤ n ∧ ∀ term ∈ suggestions, (start <+: term ∧ term ∈ indexedWords X entries) ∧
    (∀ entry ∈ entries, term ≠ getDocId entry.id) ∧ ∀ tag, term ≠ tagTerm tag

/-- The words that start as asked and come before a term. -/
def wordsBefore (X : Xapian) (entries : List Entry) (start term : Bytes) : Finset Bytes :=
  (indexedWords X entries).toFinset.filter fun word => start <+: word ∧ word < term

theorem suggest_apply (hr : s.reader = some db) (e : IndexEnv) (start : Bytes) (n : Nat) :
    suggest e start n s = (.ok (if e.reads then (X.allTerms db start).take n else []), s) := by
  cases hreads : e.reads <;> simp [suggest, hr, orEmpty, Eff.catching_apply, hreads, IndexFault.isXapian]

theorem mem_allTerms_iff (hall : X.Enumerates) (hdocs : (X.docs db).Perm (entries.map entryToDocument)) :
    term ∈ X.allTerms db start ↔ start <+: term ∧ (Internal entries term ∨ term ∈ indexedWords X entries) := by
  rw [hall.mem_allTerms, carried_iff hdocs]

theorem suggestions_words_iff (hX : X.Lawful) (hall : X.Enumerates) (hdocs : (X.docs db).Perm (entries.map entryToDocument)) :
    SuggestsWords X entries start n ((X.allTerms db start).take n) ↔
      ∀ term ∈ (X.allTerms db start).take n, ¬ Internal entries term := by
  constructor
  · intro h term hterm
    exact word_not_internal hX (h.2 term hterm).1.2
  · intro h
    refine ⟨List.length_take_le _ _, fun term hterm => ?_⟩
    obtain ⟨hstart, hkind⟩ := (mem_allTerms_iff hall hdocs).mp (List.mem_of_mem_take hterm)
    have hword := hkind.resolve_left (h term hterm)
    obtain ⟨hid, htag⟩ := word_not_marked hX hword
    exact ⟨⟨hstart, hword⟩, fun entry _ => hid entry.id, htag⟩

theorem suggestions_iff (hX : X.Lawful) (hall : X.Enumerates) (hdocs : (X.docs db).Perm (entries.map entryToDocument)) :
    SuggestsWords X entries start n ((X.allTerms db start).take n) ↔
      ∀ term, Internal entries term → start <+: term → n ≤ (wordsBefore X entries start term).card := by
  have hbefore : ∀ x ∈ X.allTerms db start, Internal entries x → ∀ w, w ∈ wordsBefore X entries start x ↔
      w ∈ X.allTerms db start ∧ ¬ Internal entries w ∧ w < x := by
    intro x _ _ w
    unfold wordsBefore
    rw [Finset.mem_filter, List.mem_toFinset, mem_allTerms_iff hall hdocs]
    constructor
    · rintro ⟨hword, hstart, hlt⟩
      exact ⟨⟨hstart, .inr hword⟩, word_not_internal hX hword, hlt⟩
    · rintro ⟨⟨hstart, hkind⟩, hnot, hlt⟩
      exact ⟨hkind.resolve_left hnot, hstart, hlt⟩
  rw [suggestions_words_iff hX hall hdocs, first_avoids_iff (hall.sorted db start) hbefore]
  simp only [mem_allTerms_iff hall hdocs]
  constructor
  · intro h term hinternal hstart
    exact h term ⟨hstart, .inl hinternal⟩ hinternal
  · rintro h term ⟨hstart, -⟩ hinternal
    exact h term hinternal hstart

/-! ## Both -/

/-- The kinds of terms are kept apart in a metadata filter and in the suggestions of an open index. -/
def KeptApart (e : IndexEnv) (s : Index X) (entries : List Entry) (key value start : Bytes) (n : Nat) : Prop :=
  MetadataApart entries key value ∧
    ∃ suggestions, suggest e start n s = (.ok suggestions, s) ∧ SuggestsWords X entries start n suggestions

/-- They are kept apart exactly when the key is not `TAG` and does not begin with `TAG:`, and enough words come before each id
term and tag term that starts as asked. -/
theorem keptApart_iff (hX : X.Lawful) (hall : X.Enumerates) (hids : ∀ entry ∈ entries, HexId entry.id)
    (hr : s.reader = some db) (hdocs : (X.docs db).Perm (entries.map entryToDocument)) :
    KeptApart e s entries key value start n ↔ ¬ ascii "TAG:" <+: key ++ ascii ":" ∧
      (e.reads = true → ∀ term, Internal entries term → start <+: term → n ≤ (wordsBefore X entries start term).card) := by
  unfold KeptApart
  rw [metadata_apart_iff hids, ← suggestions_iff hX hall hdocs, suggest_apply hr]
  refine and_congr_right fun _ => ?_
  constructor
  · rintro ⟨suggestions, hsuggest, hwords⟩ hreads
    rw [if_pos hreads] at hsuggest
    rwa [← Except.ok.inj (Prod.mk.inj hsuggest).1] at hwords
  · intro h
    refine ⟨_, rfl, ?_⟩
    split_ifs with hreads
    · exact h hreads
    · exact ⟨Nat.zero_le n, nofun⟩

theorem mem_sortedTerms {terms : List Bytes} : term ∈ sortedTerms terms ↔ term ∈ terms := by
  have hkeys : (terms.dedup.map fun term => (term, ())).map Prod.fst = terms.dedup := by
    rw [List.map_map]
    exact List.map_id _
  have hnodup : ((terms.dedup.map fun term => (term, ())).map Prod.fst).Nodup := by
    rw [hkeys]
    exact List.nodup_dedup terms
  have hperm := (OrdMap.toList_ofList_perm hnodup).map Prod.fst
  rw [hkeys] at hperm
  exact hperm.mem_iff.trans List.mem_dedup

theorem mem_toyTerms {doc : Document} : term ∈ toyTerms doc ↔ toyXapian.carries doc term = true := by
  unfold toyTerms Xapian.carries
  rw [List.mem_append, List.mem_flatMap, Bool.or_eq_true, List.contains_iff_mem, List.any_eq_true]
  simp only [List.contains_iff_mem]
  exact Iff.rfl

theorem toyXapian_enumerates : toyXapian.Enumerates where
  sorted db start := (List.pairwise_map.mpr (OrdMap.sorted _)).filter _
  mem_allTerms db start term := by
    have hcarried : ∀ docs : List Document, term ∈ docs.flatMap toyTerms ↔
        ∃ doc ∈ docs, toyXapian.carries doc term = true := by
      intro docs
      rw [List.mem_flatMap]
      simp only [mem_toyTerms]
    show term ∈ (sortedTerms (db.flatMap toyTerms)).filter (fun term => start.isPrefixOf term) ↔ _
    rw [List.mem_filter, mem_sortedTerms, List.isPrefixOf_iff_prefix, and_comm]
    exact and_congr_right fun _ => hcarried db

/-- An entry with a hexadecimal id and a tag. -/
def taggedEntry : Entry :=
  { Entry.blank with
    id := ascii "0f", name := ascii "2nd Mail", username := ascii "user",
    metadata := OrdMap.ofList [(ascii "url", ascii "example.com")], tags := [ascii "work"] }

/-- An index of that entry, and the search engine opened on it. -/
def taggedIndex : Index toyXapian := ⟨.holds [entryToDocument taggedEntry], none, some [entryToDocument taggedEntry]⟩

theorem hexId_tagged : ∀ entry ∈ [taggedEntry], HexId entry.id := by
  unfold HexId
  decide +kernel

/-- The suggestions for `m`, and the filter on a url. -/
theorem keptApart_tagged : KeptApart .calm taggedIndex [taggedEntry] (ascii "url") (ascii "example.com") (ascii "m") 5 := by
  have hperm : (toyXapian.docs [entryToDocument taggedEntry]).Perm ([taggedEntry].map entryToDocument) := .refl _
  refine (keptApart_iff toyXapian_lawful toyXapian_enumerates hexId_tagged rfl hperm).mpr ⟨by decide +kernel, ?_⟩
  rintro - term ⟨entry, hentry, hterm⟩ hstart
  rw [List.mem_singleton.mp hentry] at hterm
  rcases hterm with rfl | ⟨tag, -, rfl⟩
  · exact absurd (List.cons_prefix_cons.mp hstart).1 (by decide)
  · exact absurd (List.cons_prefix_cons.mp hstart).1 (by decide)

/-- The filter on the key `TAG` is the term of a tag, and the first suggestions without a prefix are an id and a tag. -/
theorem not_keptApart : metadataTerm (ascii "TAG") (ascii "work") = tagTerm (ascii "work") ∧
    (suggest .calm [] 5 taggedIndex).1 =
      .ok [ascii "2nd", ascii "Q0f", ascii "TAG:work", ascii "com", ascii "example"] ∧
    ¬ ∀ entries key value start n, (∀ entry ∈ entries, HexId entry.id) → ∀ (s : Index toyXapian) (db : List Document),
      s.reader = some db → (toyXapian.docs db).Perm (entries.map entryToDocument) →
        KeptApart .calm s entries key value start n := by
  have hsame : metadataTerm (ascii "TAG") (ascii "work") = tagTerm (ascii "work") := by decide +kernel
  refine ⟨hsame, by decide +kernel, fun h => ?_⟩
  have hperm : (toyXapian.docs [entryToDocument taggedEntry]).Perm ([taggedEntry].map entryToDocument) := .refl _
  exact (h [taggedEntry] (ascii "TAG") (ascii "work") [] 5 hexId_tagged taggedIndex _ rfl hperm).1.1 (ascii "work") hsame

end Passdoq
