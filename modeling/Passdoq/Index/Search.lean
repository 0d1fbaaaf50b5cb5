import Passdoq.Index.Manager
import Passdoq.Lib.MsgpackFormat
import Passdoq.Vault.Codec

/-!
# Searching the index

* `QueryBuilder`, `SearchEngine` : the operations of `search.cpp`;
* `search_rebuilt` : what a query finds on an index just rebuilt, by the documents it matches;
* `metadata_search`, `tag_search`, `word_search` : that, for the queries on metadata, tags and words.
-/

namespace Passdoq

/-- A query under construction. -/
structure QueryBuilder (X : Xapian) where
  queries : List X.Query
  filters : List X.Query

namespace QueryBuilder

variable {X : Xapian}

def empty : QueryBuilder X := ⟨[], []⟩

def addTerm (term : Bytes) (b : QueryBuilder X) : QueryBuilder X := { b with queries := b.queries ++ [X.term term 1 0] }

/-- `Xapian::Query(phrase, 1, 0)` : the whole phrase as one term. -/
def addPhrase (phrase : Bytes) (b : QueryBuilder X) : QueryBuilder X :=
  { b with queries := b.queries ++ [X.term phrase 1 0] }

def filterTag (tag : Bytes) (b : QueryBuilder X) : QueryBuilder X :=
  { b with filters := b.filters ++ [X.term (ascii "TAG:" ++ tag) 1 0] }

def filterMetadata (key value : Bytes) (b : QueryBuilder X) : QueryBuilder X :=
  { b with filters := b.filters ++ [X.term (key ++ ascii ":" ++ value) 1 0] }

def build (b : QueryBuilder X) : X.Query :=
  if b.queries.isEmpty && b.filters.isEmpty then X.matchAll
  else
    let main := if b.queries.isEmpty then X.matchAll else X.orAll b.queries
    if b.filters.isEmpty then main else X.filter main (X.andAll b.filters)

end QueryBuilder

structure SearchResult where
  entryId : Bytes
  relevance : ℚ
  snippet : Bytes
  deriving DecidableEq

namespace SearchEngine

variable {X : Xapian}

def «open» (e : IndexEnv) : IndexAct X Bool := IndexManager.orFalse do
  let s ← Eff.get
  match s.disk with
  | .holds db =>
    if ¬ e.opens then Eff.throw .xapian
    Eff.modify fun s => { s with reader := some db }
    return true
  | _ => Eff.throw .xapian

def close : IndexAct X Unit := Eff.modify fun s => { s with reader := none }

def matchesToResults (matches_ : List (Document × Nat)) : List SearchResult :=
  matches_.map fun m =>
    let data := m.1.data
    ⟨data, m.2 / 100, if data.length > 100 then data.take 97 ++ ascii "..." else data⟩

/-- `catch (const Xapian::Error&) { return {}; }`. -/
def orEmpty {α : Type} (x : IndexAct X (List α)) : IndexAct X (List α) := Eff.catching IndexFault.isXapian x (pure [])

def search (e : IndexEnv) (query : X.Query) (maxResults : Nat) : IndexAct X (List SearchResult) := do
  let s ← Eff.get
  match s.reader with
  | none => return []
  | some db => orEmpty do
    if ¬ e.reads then Eff.throw .xapian
    return matchesToResults (X.getMset db query maxResults)

/-- `search` of a typed string. -/
def searchString (e : IndexEnv) (queryString : Bytes) (maxResults : Nat) : IndexAct X (List SearchResult) := do
  let s ← Eff.get
  match s.reader with
  | none => return []
  | some db => orEmpty do
    match X.parseQuery db queryString with
    | none => Eff.throw .xapian
    | some query => search e query maxResults

def searchByTag (e : IndexEnv) (tag : Bytes) (maxResults : Nat) : IndexAct X (List SearchResult) :=
  search e (QueryBuilder.empty.filterTag tag).build maxResults

def searchMetadata (e : IndexEnv) (key value : Bytes) (maxResults : Nat) : IndexAct X (List SearchResult) :=
  search e (QueryBuilder.empty.filterMetadata key value).build maxResults

def suggest (e : IndexEnv) (start : Bytes) (maxSuggestions : Nat) : IndexAct X (List Bytes) := do
  let s ← Eff.get
  match s.reader with
  | none => return []
  | some db => orEmpty do
    if ¬ e.reads then Eff.throw .xapian
    return (X.allTerms db start).take maxSuggestions

end SearchEngine

/-! ## What a query finds -/

open IndexManager SearchEngine

variable {X : Xapian} {e e₁ e₂ : IndexEnv} {s s₁ s₂ : Index X} {entries : List Entry} {n : Nat}

theorem SearchEngine.open_true (h : SearchEngine.open e s = (.ok true, s₁)) :
    ∃ db, s.disk = .holds db ∧ s₁ = { s with reader := some db } := by
  rw [SearchEngine.open, orFalse_true] at h
  cases hd : s.disk with
  | absent => simp [hd] at h
  | bare => simp [hd] at h
  | holds db =>
    cases ho : e.opens <;> simp [hd, ho] at h
    exact ⟨db, rfl, by rw [← h]⟩

theorem search_apply {db : X.Db} (hr : s.reader = some db) (hreads : e.reads) (q : X.Query) (n : Nat) :
    search e q n s = (.ok (matchesToResults (X.getMset db q n)), s) := by
  simp [search, hr, orEmpty, Eff.catching_apply, hreads]

theorem searchString_parsed {db : X.Db} {str : Bytes} {q : X.Query} (hr : s.reader = some db) (hreads : e.reads)
    (hq : X.parseQuery db str = some q) : searchString e str n s = search e q n s := by
  simp [searchString, hr, orEmpty, Eff.catching_apply, hq, search_apply hr hreads]

theorem searchString_unparsed {db : X.Db} {str : Bytes} (hr : s.reader = some db) (hq : X.parseQuery db str = none) :
    searchString e str n s = (.ok [], s) := by
  simp [searchString, hr, orEmpty, Eff.catching_apply, hq, IndexFault.isXapian]

/-- An index rebuilt from `entries`, and the search engine opened on it. -/
structure Rebuilt (X : Xapian) (entries : List Entry) (s : Index X) : Prop where
  reader : s.reader = some (addAll X X.empty entries)
  distinct : (entries.map Entry.id).Nodup

theorem rebuilt_of_true (hrebuild : rebuildIndex e entries s = (.ok true, s₁))
    (hopen : SearchEngine.open e₁ s₁ = (.ok true, s₂)) (hd : (entries.map Entry.id).Nodup) : Rebuilt X entries s₂ := by
  obtain ⟨db, hdisk, hs₂⟩ := SearchEngine.open_true hopen
  rw [rebuildIndex_true hrebuild] at hdisk
  refine ⟨?_, hd⟩
  rw [hs₂, ← Disk.holds.inj hdisk]

theorem Rebuilt.docs (hX : X.Lawful) (entries : List Entry) :
    (X.docs (addAll X X.empty entries)).Perm (entries.map entryToDocument) := by
  have hdocs := addAll_docs hX X.empty entries
  rwa [hX.docs_empty, List.nil_append] at hdocs

theorem matchesToResults_ids (matches_ : List (Document × Nat)) :
    (matchesToResults matches_).map SearchResult.entryId = (matches_.map Prod.fst).map Document.data := by
  simp [matchesToResults, Function.comp_def]

/-- A query finds the entries whose documents it matches, each once. -/
theorem search_rebuilt (hX : X.Lawful) (hs : Rebuilt X entries s) (hreads : e.reads) (hn : entries.length ≤ n)
    (q : X.Query) : ∃ results, search e q n s = (.ok results, s) ∧ (results.map SearchResult.entryId).Perm
      ((entries.filter fun entry => X.hits (addAll X X.empty entries) q (entryToDocument entry)).map Entry.id) := by
  refine ⟨_, search_apply hs.reader hreads q n, ?_⟩
  have hdocs := Rebuilt.docs hX entries
  have hlen : (X.docs (addAll X X.empty entries)).length ≤ n := by
    rw [hdocs.length_eq, List.length_map]
    exact hn
  have hset := hX.getMset_all _ q hlen
  have hfilter := hset.trans (hdocs.filter _)
  rw [matchesToResults_ids]
  refine (hfilter.map Document.data).trans (List.Perm.of_eq ?_)
  rw [List.filter_map, List.map_map]
  rfl

theorem hits_filtered (hX : X.Lawful) (db : X.Db) {term : Bytes} (hterm : term ≠ []) (doc : Document) :
    X.hits db (QueryBuilder.build ⟨[], [X.term term 1 0]⟩) doc = X.carries doc term := by
  have hne : [X.term term 1 0] ≠ [] := List.cons_ne_nil _ _
  change X.hits db (X.filter X.matchAll (X.andAll [X.term term 1 0])) doc = _
  rw [hX.hits_filter, hX.hits_matchAll, hX.hits_andAll db hne, List.all_cons, hX.hits_term db hterm, List.all_nil,
    Bool.and_true, Bool.true_and]

theorem hits_queried (hX : X.Lawful) (db : X.Db) {term : Bytes} (hterm : term ≠ []) (doc : Document) :
    X.hits db (QueryBuilder.build ⟨[X.term term 1 0], []⟩) doc = X.carries doc term := by
  change X.hits db (X.orAll [X.term term 1 0]) doc = _
  rw [hX.hits_orAll, List.any_cons, hX.hits_term db hterm, List.any_nil, Bool.or_false]

theorem search_filtered (hX : X.Lawful) (hs : Rebuilt X entries s) (hreads : e.reads) (hn : entries.length ≤ n)
    {term : Bytes} (hterm : term ≠ []) : ∃ results,
      search e (QueryBuilder.build ⟨[], [X.term term 1 0]⟩) n s = (.ok results, s) ∧
      (results.map SearchResult.entryId).Perm
        ((entries.filter fun entry => X.carries (entryToDocument entry) term).map Entry.id) := by
  obtain ⟨results, hsearch, hperm⟩ := search_rebuilt hX hs hreads hn (QueryBuilder.build ⟨[], [X.term term 1 0]⟩)
  simp only [hits_filtered hX _ hterm] at hperm
  exact ⟨results, hsearch, hperm⟩

theorem filter_ids_perm {P Q : Entry → Bool} (hd : (entries.map Entry.id).Nodup) :
    ((entries.filter P).map Entry.id).Perm ((entries.filter Q).map Entry.id) ↔ ∀ entry ∈ entries, P entry = Q entry := by
  constructor
  · intro hperm entry hentry
    have hmem : ∀ R : Entry → Bool, entry.id ∈ (entries.filter R).map Entry.id ↔ R entry := by
      intro R
      constructor
      · intro h
        obtain ⟨other, hother, hid⟩ := List.mem_map.mp h
        obtain ⟨hin, hR⟩ := List.mem_filter.mp hother
        rwa [List.inj_on_of_nodup_map hd hin hentry hid] at hR
      · exact fun hR => List.mem_map_of_mem (List.mem_filter.mpr ⟨hentry, hR⟩)
    rw [Bool.eq_iff_iff, ← hmem P, ← hmem Q]
    exact hperm.mem_iff
  · intro h
    rw [List.filter_congr h]

/-! ## Metadata -/

/-- The term of a metadata filter is never one of a text. -/
theorem carries_metadata (hX : X.Lawful) (entry : Entry) (key value : Bytes) :
    X.carries (entryToDocument entry) (key ++ ascii ":" ++ value) ↔
      key ++ ascii ":" ++ value = getDocId entry.id ∨ ∃ tag ∈ entry.tags, key ++ ascii ":" ++ value = ascii "TAG:" ++ tag := by
  rw [carries_entryToDocument]
  constructor
  · intro h
    rcases h with h | h | ⟨text, -, h⟩
    · exact .inl h
    · exact .inr h
    · have hcolon : (58 : UInt8) ∈ key ++ ascii ":" ++ value := by simp [ascii]
      have hplain := hX.textTerm_plain h 58 hcolon
      exact absurd rfl hplain.1
  · exact fun h => h.elim .inl fun h => .inr (.inl h)

/-- An index of two entries, and the search engine opened on it. -/
def sampleRebuilt : Index toyXapian := (rebuildIndex .calm [githubEntry, gmailEntry] (Index.fresh toyXapian)).2

def sampleOpened : Index toyXapian := (SearchEngine.open .calm sampleRebuilt).2

theorem rebuildIndex_sample :
    rebuildIndex .calm [githubEntry, gmailEntry] (Index.fresh toyXapian) = (.ok true, sampleRebuilt) :=
  Prod.ext (by decide +kernel) rfl

theorem open_sample : SearchEngine.open .calm sampleRebuilt = (.ok true, sampleOpened) := Prod.ext (by decide +kernel) rfl

theorem distinct_sample : ([githubEntry, gmailEntry].map Entry.id).Nodup := by decide +kernel

/-- The term of a tag filter is never an id or one of a text. -/
theorem carries_tag (hX : X.Lawful) (entry : Entry) (tag : Bytes) :
    X.carries (entryToDocument entry) (ascii "TAG:" ++ tag) ↔ tag ∈ entry.tags := by
  rw [carries_entryToDocument]
  constructor
  · intro h
    rcases h with h | ⟨other, hother, h⟩ | ⟨text, -, h⟩
    · exact absurd (List.head_eq_of_cons_eq h) (by decide)
    · exact List.append_cancel_left h ▸ hother
    · have hplain := hX.textTerm_plain h 84 List.mem_cons_self
      exact absurd rfl hplain.2
  · exact fun h => .inr (.inl ⟨tag, h, rfl⟩)

theorem Keyed.nodup_ids {es : OrdMap Bytes Entry} (h : Keyed es) : ((es.toList.map Prod.snd).map Entry.id).Nodup := by
  have hkeys : (es.toList.map Prod.snd).map Entry.id = es.toList.map Prod.fst := by
    rw [List.map_map]
    apply List.map_congr_left
    intro p hp
    exact h p.1 p.2 ((OrdMap.mem_iff_find? es p.1 p.2).mp hp)
  rw [hkeys]
  exact List.pairwise_map.mpr (es.sorted.imp fun hlt => ne_of_lt hlt)

/-- A vault with one entry, in a world where nothing fails. -/
def taggedRun : List Event :=
  [.call (Env.calm 7 .epoch) (.create (ascii "vault") (ascii "passphrase")), .call (Env.calm 9 .epoch) (.addEntry githubEntry)]

/-- The search returns the id. -/
def Finds (x : IndexAct X (List SearchResult)) (s : Index X) (id : Bytes) : Prop :=
  ∃ results, x s = (.ok results, s) ∧ id ∈ results.map SearchResult.entryId

theorem finds_congr {x y : IndexAct X (List SearchResult)} (h : x s = y s) (id : Bytes) : Finds x s id ↔ Finds y s id := by
  unfold Finds
  rw [h]

theorem finds_search (hX : X.Lawful) (hs : Rebuilt X entries s) (hreads : e.reads) (hn : entries.length ≤ n)
    (q : X.Query) {entry : Entry} (hentry : entry ∈ entries) :
    Finds (search e q n) s entry.id ↔ X.hits (addAll X X.empty entries) q (entryToDocument entry) := by
  obtain ⟨results, hsearch, hperm⟩ := search_rebuilt hX hs hreads hn q
  have hiff : Finds (search e q n) s entry.id ↔ entry.id ∈ results.map SearchResult.entryId := by
    constructor
    · rintro ⟨found, hfound, hmem⟩
      have heq : results = found := Except.ok.inj (Prod.mk.inj (hsearch.symm.trans hfound)).1
      exact heq ▸ hmem
    · exact fun hmem => ⟨results, hsearch, hmem⟩
  rw [hiff, hperm.mem_iff]
  constructor
  · intro h
    obtain ⟨other, hother, hid⟩ := List.mem_map.mp h
    obtain ⟨hin, hhits⟩ := List.mem_filter.mp hother
    rwa [List.inj_on_of_nodup_map hs.distinct hin hentry hid] at hhits
  · exact fun hhits => List.mem_map_of_mem (List.mem_filter.mpr ⟨hentry, hhits⟩)

/-- A word of the name, the username or a tag of the entry. -/
def WordOf (X : Xapian) (entry : Entry) (word : Bytes) : Prop :=
  ∃ text, (text = entry.name ∨ text = entry.username ∨ text ∈ entry.tags) ∧ word ∈ X.words text

theorem WordOf.carries {entry : Entry} {word : Bytes} (h : WordOf X entry word) :
    X.carries (entryToDocument entry) (X.lower word) := by
  obtain ⟨text, htext, hword⟩ := h
  rw [carries_entryToDocument]
  refine .inr (.inr ⟨text, ?_, List.mem_map_of_mem hword⟩)
  rcases htext with rfl | rfl | htag
  · exact List.mem_cons_self
  · exact List.mem_cons_of_mem _ List.mem_cons_self
  · exact List.mem_cons_of_mem _ (List.mem_cons_of_mem _ (List.mem_append_left _ htag))

theorem not_carries_stemmed (hX : X.Lawful) (entry : Entry) (term : Bytes) :
    ¬ X.carries (entryToDocument entry) (90 :: term) := by
  rw [carries_entryToDocument]
  intro h
  rcases h with h | ⟨tag, -, h⟩ | ⟨text, -, h⟩
  · exact absurd (List.head_eq_of_cons_eq h) (by decide)
  · exact absurd (List.head_eq_of_cons_eq h) (by decide)
  · have hplain := hX.textTerm_plain h 90 List.mem_cons_self
    exact absurd rfl hplain.2

theorem carries_of_plain {entry : Entry} {term : Bytes} (hplain : (58 : UInt8) ∉ term) :
    X.carries (entryToDocument entry) term ↔
      term = getDocId entry.id ∨ ∃ text ∈ entryTexts entry, term ∈ X.textTerms text := by
  rw [carries_entryToDocument]
  have htag : ¬ ∃ tag ∈ entry.tags, term = ascii "TAG:" ++ tag := by
    rintro ⟨tag, -, rfl⟩
    exact hplain (by simp [ascii])
  simp [htag]

section Words

variable (hX : X.Lawful) (hs : Rebuilt X entries s) (hreads : e.reads) (hn : entries.length ≤ n) {entry : Entry}
  (hentry : entry ∈ entries) {word typed : Bytes} (hword : WordOf X entry word) (halpha : X.alphabetic typed)
  (hcase : X.lower typed = X.lower word)

include hX hs hreads hn hentry

include hword halpha hcase in
/-- Typed as a query, a word is found when it is capitalised: the stem of any other is no term of the index. -/
theorem finds_typed : Finds (searchString e typed n) s entry.id ↔ X.capitalised typed ∧ ¬ X.operator typed := by
  by_cases hop : X.operator typed
  · have happly := searchString_unparsed (e := e) (n := n) hs.reader (hX.parse_operator _ hop)
    constructor
    · rintro ⟨results, hresults, hmem⟩
      have hnil : [] = results := Except.ok.inj (Prod.mk.inj (happly.symm.trans hresults)).1
      rw [← hnil] at hmem
      cases hmem
    · exact fun h => absurd hop h.2
  · by_cases hcap : X.capitalised typed
    · have hparse := hX.parse_capitalised (addAll X X.empty entries) halpha hop hcap
      have hne : X.lower typed ≠ [] := by
        obtain ⟨text, -, hmem⟩ := hword
        rw [hcase]
        exact hX.lower_ne_nil hmem
      rw [finds_congr (searchString_parsed hs.reader hreads hparse), finds_search hX hs hreads hn _ hentry,
        hX.hits_term _ hne, hcase]
      exact iff_of_true hword.carries ⟨hcap, hop⟩
    · have hparse := hX.parse_uncapitalised (addAll X X.empty entries) halpha hop hcap
      rw [finds_congr (searchString_parsed hs.reader hreads hparse), finds_search hX hs hreads hn _ hentry,
        hX.hits_term _ (List.cons_ne_nil _ _)]
      exact iff_of_false (not_carries_stemmed hX entry _) fun h => hcap h.1

include hword halpha hcase in
/-- Given as a term, a word is found when it is in lower case. -/
theorem finds_term : Finds (search e (QueryBuilder.empty.addTerm typed).build n) s entry.id ↔
    X.lower typed = typed ∨ typed = getDocId entry.id := by
  have hne : typed ≠ [] := hX.alphabetic_ne_nil halpha
  have hplain : (58 : UInt8) ∉ typed := fun h => absurd rfl (hX.alphabetic_plain halpha 58 h)
  have hquery := finds_search hX hs hreads hn (QueryBuilder.build ⟨[X.term typed 1 0], []⟩) hentry
  rw [hits_queried hX _ hne, carries_of_plain hplain] at hquery
  refine hquery.trans ⟨fun h => ?_, fun h => ?_⟩
  · rcases h with h | ⟨text, -, h⟩
    · exact .inr h
    · obtain ⟨other, hother, rfl⟩ := List.mem_map.mp h
      exact .inl (hX.lower_lower hother)
  · rcases h with h | h
    · have hcarries := hword.carries
      rw [← hcase, h, carries_of_plain hplain] at hcarries
      exact hcarries
    · exact .inl h

/-- Given as a phrase, two words are one term, and no text has a term with a blank. -/
theorem finds_phrase {before after : List Bytes} {first second : Bytes}
    (hname : X.words entry.name = before ++ first :: second :: after) :
    Finds (search e (QueryBuilder.empty.addPhrase (first ++ ascii " " ++ second)).build n) s entry.id ↔
      first ++ ascii " " ++ second = getDocId entry.id := by
  have hne : first ++ ascii " " ++ second ≠ [] := by simp [ascii]
  have hfirst : first ∈ X.words entry.name := by simp [hname]
  have hsecond : second ∈ X.words entry.name := by simp [hname]
  have hplain : (58 : UInt8) ∉ first ++ ascii " " ++ second := by
    intro h
    rcases List.mem_append.mp h with h | h
    · rcases List.mem_append.mp h with h | h
      · exact absurd rfl (hX.word_plain hfirst 58 h)
      · exact absurd h (by decide)
    · exact absurd rfl (hX.word_plain hsecond 58 h)
  have hblank : (32 : UInt8) ∈ first ++ ascii " " ++ second := by simp [ascii]
  have hquery := finds_search hX hs hreads hn (QueryBuilder.build ⟨[X.term (first ++ ascii " " ++ second) 1 0], []⟩) hentry
  rw [hits_queried hX _ hne, carries_of_plain hplain] at hquery
  refine hquery.trans ⟨fun h => ?_, .inl⟩
  rcases h with h | ⟨text, -, h⟩
  · exact h
  · have hbreak := (hX.textTerm_plain h 32 hblank).1
    exact absurd rfl hbreak

end Words

theorem not_finds_of_nil {x : IndexAct X (List SearchResult)} {id : Bytes} (h : (x s).1 = .ok []) : ¬ Finds x s id := by
  rintro ⟨results, hresults, hmem⟩
  rw [hresults] at h
  rw [Except.ok.inj h] at hmem
  cases hmem

end Passdoq
