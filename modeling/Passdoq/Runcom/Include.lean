import Passdoq.Lib.Dfs
import Passdoq.Runcom.Config
import Mathlib

/-!
# Nested includes

Whether the expansion of a file comes to an end depends on how the `#include` lines spell the paths, since a file that was
read is known by its path only.

* `FileSystem`, `resolve`, `read` : directories and files, what a path names and what reading it comes to;
* `includes` : what the lines of a file include; `preprocess_search` : the expansion is a depth-first search along these,
  which breaks off at a directory;
* `IncludesEnd` : a load comes to an end, and reads no file twice along one chain of nested includes;
  `includesEnd_iff` : when it does.
-/

namespace Passdoq.Runcom

/-! ## File systems -/

/-- A finite file system and the working directory. A place in it is a list of names, the innermost first. -/
structure FileSystem where
  directories : List (List Bytes)
  files : OrdMap (List Bytes) Bytes
  working : List Bytes

namespace FileSystem

variable (fs : FileSystem)

/-- From a directory along one name of a path. -/
def enter (place : List Bytes) (name : Bytes) : Option (List Bytes) :=
  if name = [] ∨ name = ascii "." then some place
  else if name = ascii ".." then some place.tail
  else if name :: place ∈ fs.directories then some (name :: place) else none

/-- From a directory along the names of a path to the place that it names. -/
def walk : List Bytes → List Bytes → Option (List Bytes)
  | _, [] => none
  | place, [name] =>
    if name = [] ∨ name = ascii "." then some place
    else if name = ascii ".." then some place.tail else some (name :: place)
  | place, name :: names => (fs.enter place name).bind fun place => walk place names

/-- The place that a path names; the path ends at its first zero, and an empty one names nothing. -/
def resolve (path : Bytes) : Option (List Bytes) :=
  let path := path.takeWhile (· ≠ 0)
  if path = [] then none else fs.walk (if path.head? = some 47 then [] else fs.working) (path.splitOn 47)

/-- A directory opens, and reading it fails. -/
def read (path : Bytes) : Reading :=
  match fs.resolve path with
  | none => .closed
  | some place =>
    if place = [] ∨ place ∈ fs.directories then
      .throws (.runtimeError "basic_filebuf::underflow error reading the file: Is a directory")
    else match fs.files.find? place with
      | none => .closed
      | some content => .contents content

/-- The places where there are files. -/
def places : Finset (Option (List Bytes)) := (fs.files.toList.map fun p => some p.1).toFinset

theorem resolve_mem {path content : Bytes} (h : fs.read path = .contents content) : fs.resolve path ∈ fs.places := by
  unfold read at h
  cases hplace : fs.resolve path with
  | none =>
    rw [hplace] at h
    cases h
  | some place =>
    rw [hplace] at h
    dsimp only at h
    split_ifs at h
    cases hfind : fs.files.find? place with
    | none =>
      rw [hfind] at h
      cases h
    | some content =>
      have hmem : (place, content) ∈ fs.files.toList := (fs.files.mem_iff_find? place content).mpr hfind
      exact List.mem_toFinset.mpr (List.mem_map.mpr ⟨_, hmem, rfl⟩)

end FileSystem

/-! ## The expansion as a search -/

/-- What a line includes: a path that opens. -/
def target (read : Bytes → Reading) (base line : Bytes) : Option Bytes :=
  if (ascii "#include").isPrefixOf line then
    ((includeFile line).map (join base)).filter fun path => (read path).opens
  else none

/-- What the lines of a file include. -/
def includes (read : Bytes → Reading) (path : Bytes) : List Bytes :=
  match read path with
  | .contents content => (getlines 10 content).filterMap (target read (parentPath path))
  | _ => []

/-- Reading the path throws. -/
def breaks (read : Bytes → Reading) (path : Bytes) : Bool := (read path).fails

/-- What an expansion has gone through. -/
def Expansion.trace (x : Expansion) : Dfs.Trace Bytes := ⟨x.chains, x.loaded, x.thrown.isSome⟩

section Search

variable {read : Bytes → Reading} {n : Nat} {chain loaded : List Bytes} {base line path content : Bytes}
  {x : Expansion}

theorem opens_of_mem_includes {u v : Bytes} (h : v ∈ includes read u) : (read v).opens := by
  unfold includes at h
  cases hread : read u with
  | closed | throws => simp [hread] at h
  | contents content =>
    rw [hread] at h
    obtain ⟨line, -, htarget⟩ := List.mem_filterMap.mp h
    unfold target at htarget
    split_ifs at htarget
    exact (Option.filter_eq_some_iff.mp htarget).2

/-- Every expansion with this fuel goes as the search does. -/
def Searches (read : Bytes → Reading) (n : Nat) : Prop :=
  ∀ path above content loaded, read path = .contents content →
    (preprocess read n (path :: above) content (parentPath path) loaded).map Expansion.trace =
      Dfs.search (includes read) (breaks read) n path above loaded

/-- A line goes as a visit of what it includes, when there is something. -/
theorem preprocessLine_visit (hsearch : Searches read n) (chain : List Bytes) (base : Bytes) (x : Expansion)
    (line : Bytes) :
    (preprocessLine read (preprocess read n) chain base x line).map Expansion.trace =
      match target read base line with
      | none => some x.trace
      | some path => Dfs.visit (breaks read) (Dfs.search (includes read) (breaks read) n) chain x.trace path := by
  have hvisit : ∀ path, x.trace.stopped = true ∨ path ∈ x.trace.seen →
      Dfs.visit (breaks read) (Dfs.search (includes read) (breaks read) n) chain x.trace path = some x.trace :=
    fun path h => if_pos h
  unfold preprocessLine target
  by_cases hthrown : x.thrown.isSome = true
  · rw [if_pos hthrown]
    cases (if (ascii "#include").isPrefixOf line then
      ((includeFile line).map (join base)).filter fun path => (read path).opens else none) with
    | none => rfl
    | some path => exact (hvisit path (.inl hthrown)).symm
  rw [if_neg hthrown]
  split_ifs
  · cases includeFile line with
    | none => rfl
    | some name =>
      simp only [Option.map_some]
      by_cases hseen : join base name ∈ x.loaded
      · rw [if_pos hseen]
        cases hopens : (read (join base name)).opens with
        | true =>
          rw [Option.filter_some, if_pos hopens]
          exact (hvisit _ (.inr hseen)).symm
        | false =>
          rw [Option.filter_some, if_neg (by simp [hopens])]
          rfl
      · rw [if_neg hseen]
        have hgoes : ¬ (x.trace.stopped = true ∨ join base name ∈ x.trace.seen) := not_or.mpr ⟨hthrown, hseen⟩
        cases hread : read (join base name) with
        | closed =>
          rw [Option.filter_some, if_neg (by simp [hread, Reading.opens])]
          rfl
        | throws e =>
          rw [Option.filter_some, if_pos (by simp [hread, Reading.opens])]
          simp only [Dfs.visit]
          rw [if_neg hgoes, if_pos (by simp [breaks, hread, Reading.fails])]
          rfl
        | contents content =>
          rw [Option.filter_some, if_pos (by simp [hread, Reading.opens])]
          simp only [Dfs.visit]
          rw [if_neg hgoes, if_neg (by simp [breaks, hread, Reading.fails]), ← hsearch _ chain content _ hread,
            Option.map_map, Option.map_map]
          rfl
  · rfl

theorem preprocessLines_visit (hsearch : Searches read n) (chain : List Bytes) (base : Bytes) (x : Expansion)
    (lines : List Bytes) :
    (lines.foldlM (preprocessLine read (preprocess read n) chain base) x).map Expansion.trace =
      (lines.filterMap (target read base)).foldlM
        (Dfs.visit (breaks read) (Dfs.search (includes read) (breaks read) n) chain) x.trace := by
  induction lines generalizing x with
  | nil => rfl
  | cons line lines ih =>
    have hline := preprocessLine_visit hsearch chain base x line
    rw [List.foldlM_cons, List.filterMap_cons]
    cases htarget : target read base line with
    | none =>
      rw [htarget] at hline
      obtain ⟨y, hy, hxy⟩ := Option.map_eq_some_iff.mp hline
      rw [hy, Option.bind_eq_bind, Option.bind_some, ih, hxy]
    | some path =>
      rw [htarget] at hline
      simp only at hline
      rw [List.foldlM_cons, ← hline]
      cases preprocessLine read (preprocess read n) chain base x line with
      | none => rfl
      | some y => exact ih y

theorem preprocess_search (read : Bytes → Reading) (n : Nat) : Searches read n := by
  induction n with
  | zero => exact fun _ _ _ _ _ => rfl
  | succ n ih =>
    intro path above content loaded hread
    have hlines := preprocessLines_visit ih (path :: above) (parentPath path) ⟨[], loaded, none, []⟩ (getlines 10 content)
    rw [preprocess, hlines, Dfs.search, includes, hread]
    rfl

end Search

/-! ## When a load comes to an end -/

/-- The load of a path comes to an end, by an exception or without one, and no file is read twice along one chain of nested
includes. -/
def IncludesEnd (fs : FileSystem) (c : Config) (path : Bytes) : Prop :=
  path ∉ c.loadedFiles → ∀ content, fs.read path = .contents content →
    ∃ fuel x, c.expand fs.read fuel path content = some x ∧ ∀ chain ∈ [path] :: x.chains, (chain.map fs.resolve).Nodup

/-- The chains of nested includes of new paths, in the order of the lines and before a directory is included. -/
def Chained (fs : FileSystem) (c : Config) (path : Bytes) : List Bytes → Set Bytes → Prop :=
  Dfs.Followed (includes fs.read) (breaks fs.read) path (Dfs.nodes (c.loadedFiles ++ [path]))

/-- Along every chain of nested includes of new paths, a file is spelled in one way. -/
def SpelledOnce (fs : FileSystem) (c : Config) (path : Bytes) : Prop :=
  ∀ chain S, Chained fs c path chain S → ∀ p ∈ chain, ∀ q ∈ chain, fs.resolve p = fs.resolve q → p = q

theorem spelledOnce_iff {fs : FileSystem} {c : Config} {path : Bytes} : SpelledOnce fs c path ↔
    ∀ chain S, Chained fs c path chain S → (chain.map fs.resolve).Nodup := by
  have hroot : path ∈ Dfs.nodes (c.loadedFiles ++ [path]) := List.mem_append_right _ (List.mem_singleton_self path)
  refine forall₃_congr fun chain S h => ?_
  rw [List.nodup_map_iff_inj_on (h.nodup hroot).1]

theorem expand_search {read : Bytes → Reading} {path content : Bytes} (hread : read path = .contents content) (c : Config)
    (fuel : Nat) : (c.expand read fuel path content).map Expansion.trace =
      Dfs.search (includes read) (breaks read) fuel path [] (c.loadedFiles ++ [path]) :=
  preprocess_search read fuel path [] content _ hread

theorem includesEnd_iff (fs : FileSystem) (c : Config) (path : Bytes) :
    IncludesEnd fs c path ↔ (path ∉ c.loadedFiles → (fs.read path).content? ≠ none → SpelledOnce fs c path) := by
  have key : ∀ content, fs.read path = .contents content →
      ((∃ fuel x, c.expand fs.read fuel path content = some x ∧
        ∀ chain ∈ [path] :: x.chains, (chain.map fs.resolve).Nodup) ↔ SpelledOnce fs c path) := by
    intro content hread
    have hnext : ∀ u, ∀ v ∈ includes fs.read u, breaks fs.read v = false → fs.resolve v ∈ fs.places := by
      intro u v hv hgoes
      have hopens := opens_of_mem_includes hv
      cases hv : fs.read v with
      | closed =>
        rw [hv] at hopens
        cases hopens
      | throws e =>
        rw [breaks, hv] at hgoes
        cases hgoes
      | contents content => exact fs.resolve_mem hv
    rw [spelledOnce_iff]
    unfold Chained
    rw [← Dfs.search_distinct_iff (fs.resolve_mem hread) hnext]
    refine exists_congr fun fuel => ?_
    rw [← expand_search hread]
    constructor
    · rintro ⟨x, hx, hnd⟩
      exact ⟨x.trace, by rw [hx]; rfl, hnd⟩
    · rintro ⟨t, ht, hnd⟩
      obtain ⟨x, hx, rfl⟩ := Option.map_eq_some_iff.mp ht
      exact ⟨x, hx, hnd⟩
  refine imp_congr_right fun _ => ?_
  cases hread : fs.read path with
  | closed | throws => simp [Reading.content?]
  | contents content => simpa [Reading.content?] using key content hread

/-- Where a file includes its directory in front of itself, the load ends by the exception. -/
example : (load (FileSystem.read
    ⟨[[ascii "d"]], OrdMap.ofList [([ascii "a", ascii "d"], ascii "#include \"\"\n#include \"./a\"\n")], []⟩)
    2 (ascii "/d/a") ⟨∅, []⟩).map (fun r => r.1.toOption) = some none := by decide

/-! ### A file that includes itself through its directory -/

def selfLine : Bytes := ascii "#include \"./a\""

/-- The file `/d/a` is one line, which spells it `./a`. -/
def selfIncluding : FileSystem := ⟨[[ascii "d"]], OrdMap.ofList [([ascii "a", ascii "d"], selfLine ++ [10])], []⟩

/-- `/d/./.` with `k` dots. -/
def selfDirectory : Nat → Bytes
  | 0 => ascii "/d"
  | k + 1 => selfDirectory k ++ ascii "/."

def selfPath (k : Nat) : Bytes := selfDirectory k ++ ascii "/a"

theorem selfDirectory_length (k : Nat) : (selfDirectory k).length = 2 + 2 * k := by
  induction k with
  | zero => rfl
  | succ k ih =>
    rw [selfDirectory, List.length_append, ih]
    show 2 + 2 * k + 2 = 2 + 2 * (k + 1)
    omega

theorem mem_selfDirectory {k : Nat} {b : UInt8} (h : b ∈ selfDirectory k) : b ∈ ascii "/d." := by
  have hroot : ∀ b ∈ ascii "/d", b ∈ ascii "/d." := by decide
  have hdot : ∀ b ∈ ascii "/.", b ∈ ascii "/d." := by decide
  induction k with
  | zero => exact hroot b h
  | succ k ih =>
    rcases List.mem_append.mp h with h | h
    · exact ih h
    · exact hdot b h

theorem getLast?_selfDirectory (k : Nat) : (selfDirectory k).getLast? ≠ some 47 := by
  cases k with
  | zero => decide
  | succ k =>
    have hdot : (ascii "/.").getLast? = some 46 := by decide
    rw [selfDirectory, List.getLast?_append, hdot]
    simp

theorem selfDirectory_head (k : Nat) : (selfDirectory k).head? = some 47 := by
  induction k with
  | zero => rfl
  | succ k ih => rw [selfDirectory, List.head?_append, ih, Option.some_or]

theorem selfDirectory_ne_nil (k : Nat) : selfDirectory k ≠ [] := by
  intro hnil
  have hhead := selfDirectory_head k
  rw [hnil] at hhead
  cases hhead

theorem selfPath_names (k : Nat) :
    (selfPath k).splitOn 47 = [] :: ascii "d" :: (List.replicate k (ascii ".") ++ [ascii "a"]) := by
  have hslash : ∀ dir name : Bytes, 47 ∉ name → (dir ++ 47 :: name).splitOn 47 = dir.splitOn 47 ++ [name] := by
    intro dir name hname
    rw [List.splitOn_append_cons_self, List.splitOn_eq_singleton hname]
  have hdirectory : (selfDirectory k).splitOn 47 = [] :: ascii "d" :: List.replicate k (ascii ".") := by
    induction k with
    | zero => decide
    | succ k ih =>
      have hdot := hslash (selfDirectory k) (ascii ".") (by decide)
      rw [ih] at hdot
      rw [List.replicate_succ']
      exact hdot
  have hfile := hslash (selfDirectory k) (ascii "a") (by decide)
  rw [hdirectory] at hfile
  exact hfile

theorem FileSystem.walk_cons {fs : FileSystem} {place names : List Bytes} (name : Bytes) (h : names ≠ []) :
    fs.walk place (name :: names) = (fs.enter place name).bind fun place => fs.walk place names := by
  obtain ⟨next, names, rfl⟩ := List.exists_cons_of_ne_nil h
  rfl

theorem selfIncluding_read (k : Nat) : selfIncluding.read (selfPath k) = .contents (selfLine ++ [10]) := by
  have hwhole : (selfPath k).takeWhile (· ≠ 0) = selfPath k := by
    have hdirectory : ∀ b ∈ ascii "/d.", b ≠ 0 := by decide
    have hname : ∀ b ∈ ascii "/a", b ≠ 0 := by decide
    refine List.takeWhile_eq_self_iff.mpr fun b hb => decide_eq_true ?_
    rcases List.mem_append.mp hb with hb | hb
    · exact hdirectory b (mem_selfDirectory hb)
    · exact hname b hb
  have hhead : (selfPath k).head? = some 47 := by
    rw [selfPath, List.head?_append, selfDirectory_head, Option.some_or]
  have hdots : ∀ place, selfIncluding.walk place (List.replicate k (ascii ".") ++ [ascii "a"]) = some (ascii "a" :: place) := by
    intro place
    have hname : ¬ (ascii "a" = [] ∨ ascii "a" = ascii ".") := by decide
    have hname' : ¬ ascii "a" = ascii ".." := by decide
    clear hwhole hhead
    induction k with
    | zero => exact (if_neg hname).trans (if_neg hname')
    | succ k ih =>
      have hdot : selfIncluding.enter place (ascii ".") = some place := if_pos (.inr rfl)
      rw [List.replicate_succ, List.cons_append, FileSystem.walk_cons _ (by simp), hdot]
      exact ih
  have hplace : selfIncluding.resolve (selfPath k) = some [ascii "a", ascii "d"] := by
    have hroot : selfIncluding.enter [] [] = some [] := if_pos (.inl rfl)
    have hd : selfIncluding.enter [] (ascii "d") = some [ascii "d"] := by decide
    have hne : selfPath k ≠ [] := List.append_ne_nil_of_left_ne_nil (selfDirectory_ne_nil k) _
    simp only [FileSystem.resolve, hwhole, if_neg hne, if_pos hhead, selfPath_names]
    rw [FileSystem.walk_cons _ (by simp), hroot, Option.bind_some, FileSystem.walk_cons _ (by simp), hd]
    exact hdots [ascii "d"]
  have hfile : selfIncluding.files.find? [ascii "a", ascii "d"] = some (selfLine ++ [10]) := by decide
  have hplace' : ¬ (([ascii "a", ascii "d"] : List Bytes) = [] ∨ [ascii "a", ascii "d"] ∈ selfIncluding.directories) := by
    decide
  unfold FileSystem.read
  rw [hplace]
  dsimp only
  rw [if_neg hplace', hfile]

theorem parentPath_append {dir name : Bytes} (hne : dir ≠ []) (hdir : dir.getLast? ≠ some 47) (hname : 47 ∉ name) :
    parentPath (dir ++ 47 :: name) = dir := by
  have hslash : isSlash 47 = true := by decide
  have hfile : (dir ++ 47 :: name).rdropWhile (fun c => !isSlash c) = dir ++ [47] := by
    induction name using List.reverseRecOn with
    | nil => exact List.rdropWhile_concat_neg _ _ _ (by simp [hslash])
    | append_singleton name c ih =>
      have hc : c ≠ 47 := by
        rintro rfl
        simp at hname
      have hdrop := List.rdropWhile_concat_pos (fun c => !isSlash c) (dir ++ 47 :: name) c (by simpa [isSlash] using hc)
      have hname' : 47 ∉ name := fun h => hname (List.mem_append_left _ h)
      rw [ih hname'] at hdrop
      rw [← hdrop, List.append_assoc]
      rfl
  have hdirectory : (dir ++ [47]).rdropWhile isSlash = dir := by
    rw [List.rdropWhile_concat_pos _ _ _ hslash, List.rdropWhile_eq_self_iff]
    intro hl hlast
    have h47 : dir.getLast hl = 47 := by simpa [isSlash] using hlast
    rw [List.getLast?_eq_some_getLast hl, h47] at hdir
    exact hdir rfl
  rw [parentPath, hfile, hdirectory]
  exact if_pos hne

theorem join_selfDirectory (k : Nat) : join (selfDirectory k) (ascii "./a") = selfPath (k + 1) := by
  have hrelative : (ascii "./a").head? ≠ some 47 := by decide
  have hne : ¬ ((ascii "./a").head? = some 47 ∨ selfDirectory k = []) := fun h => h.elim hrelative (selfDirectory_ne_nil k)
  rw [join, if_neg hne, if_neg (getLast?_selfDirectory k), selfPath, selfDirectory, List.append_assoc]
  rfl

/-- Every expansion comes to the file by one more spelling. -/
theorem selfIncluding_preprocess (n k : Nat) {chain loaded : List Bytes}
    (h : ∀ p ∈ loaded, p.length ≤ (selfPath k).length) :
    preprocess selfIncluding.read n chain (selfLine ++ [10]) (selfDirectory k) loaded = none := by
  induction n generalizing k chain loaded with
  | zero => rfl
  | succ n ih =>
    have hlines : getlines 10 (selfLine ++ [10]) = [selfLine] := by decide
    have hline : (ascii "#include").isPrefixOf selfLine := by decide
    have hname : includeFile selfLine = some (ascii "./a") := by decide
    have hlength : (selfPath (k + 1)).length = (selfPath k).length + 2 := by
      simp only [selfPath, List.length_append, selfDirectory_length]
      omega
    have hnew : selfPath (k + 1) ∉ loaded := by
      intro hmem
      have := h _ hmem
      omega
    have hrest : ∀ p ∈ loaded ++ [selfPath (k + 1)], p.length ≤ (selfPath (k + 1)).length := by
      intro p hp
      rcases List.mem_append.mp hp with hp | hp
      · have := h p hp
        omega
      · obtain rfl := List.mem_singleton.mp hp
        exact le_rfl
    have hparent : parentPath (selfPath (k + 1)) = selfDirectory (k + 1) :=
      parentPath_append (selfDirectory_ne_nil _) (getLast?_selfDirectory _) (by decide)
    have hgoes : ¬ (none : Option Exn).isSome = true := by simp
    rw [preprocess, hlines, List.foldlM_cons, preprocessLine, if_neg hgoes, if_pos hline, hname]
    simp only [join_selfDirectory, if_neg hnew, selfIncluding_read, hparent, ih (k + 1) hrest]
    rfl

/-- The load of the file never comes back. -/
theorem includesEnd_iff_self : (∀ fuel, load selfIncluding.read fuel (ascii "/d/a") ⟨∅, []⟩ = none) ∧
    ¬ IncludesEnd selfIncluding ⟨∅, []⟩ (ascii "/d/a") := by
  have hpath : ascii "/d/a" = selfPath 0 := by decide +kernel
  have hexpand : ∀ fuel, (⟨∅, []⟩ : Config).expand selfIncluding.read fuel (selfPath 0) (selfLine ++ [10]) = none := by
    intro fuel
    have hparent : parentPath (selfPath 0) = selfDirectory 0 := by decide +kernel
    rw [Config.expand, hparent]
    exact selfIncluding_preprocess fuel 0 (by simp)
  rw [hpath]
  constructor
  · intro fuel
    rw [load, if_neg (by simp), selfIncluding_read]
    simp only [hexpand]
    rfl
  · intro h
    obtain ⟨fuel, x, hx, -⟩ := h (by simp) _ (selfIncluding_read 0)
    rw [hexpand] at hx
    cases hx

end Passdoq.Runcom
