import Passdoq.Lib.Unfold
import Passdoq.Runcom.Include
import Mathlib

/-!
# Includes replaced in full

The expansion keeps one list of loaded paths for all of the text, so that an include is replaced only the first time that
its path comes.

* `items` : a file as its lines, with the includes in it;
* `preprocess_once` : the expansion replaces each include once;
* `AcyclicIncludes` : every file that is reached can be read, and none is reached from itself;
* `ExpandsInFull` : what `load` parses is the file with every include replaced; `expandsInFull_iff` : when it is.
-/

namespace Passdoq.Runcom

open Relation Unfold

/-! ## Files and their includes -/

/-- A line ended by a newline, or the include that it is. An `#include` line without a file name between two quotes is
dropped by the expansion. -/
def lineItem (base line : Bytes) : Item Bytes UInt8 :=
  if (ascii "#include").isPrefixOf line then
    match includeFile line with
    | none => .drop (line ++ [10])
    | some name => .ref (join base name)
  else .keep (line ++ [10])

def items (read : Bytes → Reading) (path : Bytes) : List (Item Bytes UInt8) :=
  match read path with
  | .contents content => (getlines 10 content).map (lineItem (parentPath path))
  | _ => []

/-- Every file that is reached from a path can be read. -/
def AllReadable (read : Bytes → Reading) (path : Bytes) : Prop :=
  ∀ u, ReflTransGen (Ref (items read)) path u → ∃ content, read u = .contents content

/-- The files that are reached from a path can all be read, and none of them is reached from itself. -/
structure AcyclicIncludes (fs : FileSystem) (path : Bytes) : Prop where
  readable : AllReadable fs.read path
  acyclic : ∀ u v, ReflTransGen (Ref (items fs.read)) path u → TransGen (Ref (items fs.read)) u v →
    fs.resolve u ≠ fs.resolve v

/-- The text that `load` parses, into a fresh `Config`, is that of the file with every include replaced by the text of the
file it names, resolved against the directory of the including file, and every other line as it is. -/
def ExpandsInFull (fs : FileSystem) (path : Bytes) : Prop :=
  ∃ content fuel x paths dropped, fs.read path = .contents content ∧
    (⟨∅, []⟩ : Config).expand fs.read fuel path content = some x ∧ x.thrown = none ∧
      Full (items fs.read) (items fs.read path) x.text paths dropped

/-! ## The expansion replaces each include once -/

section Once

variable {read : Bytes → Reading} {n : Nat} {chain loaded : List Bytes} {base line path content : Bytes}
  {lines : List Bytes} {x y : Expansion}

theorem items_eq (h : read path = .contents content) :
    items read path = (getlines 10 content).map (lineItem (parentPath path)) := by
  rw [items, h]

/-- Every expansion with this fuel comes to the end of the text, and replaces each include once. -/
def ReplacesOnce (read : Bytes → Reading) (n : Nat) : Prop :=
  ∀ path chain content loaded x, AllReadable read path → read path = .contents content →
    preprocess read n chain content (parentPath path) loaded = some x →
      x.thrown = none ∧ Once (items read) loaded (items read path) x.text x.loaded

theorem preprocessLine_once (honce : ReplacesOnce read n) (hx : x.thrown = none)
    (hread : ∀ v, lineItem base line = .ref v → AllReadable read v)
    (h : preprocessLine read (preprocess read n) chain base x line = some y) :
    y.thrown = none ∧ ∃ t, y.text = x.text ++ t ∧ Once (items read) x.loaded [lineItem base line] t y.loaded := by
  unfold preprocessLine at h
  rw [if_neg (by simp [hx])] at h
  unfold lineItem at hread ⊢
  split_ifs at h hread ⊢
  · cases hfile : includeFile line with
    | none =>
      rw [hfile] at h
      obtain rfl := Option.some.inj h
      exact ⟨hx, [], by simp, .drop .nil⟩
    | some name =>
      rw [hfile] at h hread
      simp only at h
      split_ifs at h with hseen
      · obtain rfl := Option.some.inj h
        exact ⟨hx, [], by simp, .seen hseen .nil⟩
      · have hall := hread (join base name) rfl
        obtain ⟨content, hcontent⟩ := hall _ .refl
        rw [hcontent] at h
        obtain ⟨z, hz, rfl⟩ := Option.map_eq_some_iff.mp h
        obtain ⟨hend, hnew⟩ := honce _ _ _ _ _ hall hcontent hz
        exact ⟨hend, z.text ++ [], by simp, .new hseen hnew .nil⟩
  · obtain rfl := Option.some.inj h
    exact ⟨hx, line ++ [10] ++ [], by simp, .keep .nil⟩

theorem preprocessLines_once (honce : ReplacesOnce read n) (hx : x.thrown = none)
    (hread : ∀ v, .ref v ∈ lines.map (lineItem base) → AllReadable read v)
    (h : lines.foldlM (preprocessLine read (preprocess read n) chain base) x = some y) :
    y.thrown = none ∧ ∃ t, y.text = x.text ++ t ∧ Once (items read) x.loaded (lines.map (lineItem base)) t y.loaded := by
  induction lines generalizing x with
  | nil =>
    obtain rfl := Option.some.inj h
    exact ⟨hx, [], by simp, .nil⟩
  | cons line lines ih =>
    rw [List.foldlM_cons] at h
    obtain ⟨z, hz, h⟩ := Option.bind_eq_some_iff.mp h
    obtain ⟨hz', t, ht, hline⟩ := preprocessLine_once honce hx (fun v hv => hread v (by simp [hv])) hz
    obtain ⟨hy, t', ht', hlines⟩ := ih hz' (fun v hv => hread v (List.mem_cons_of_mem _ hv)) h
    refine ⟨hy, t ++ t', by rw [ht', ht, List.append_assoc], ?_⟩
    exact hline.append hlines

theorem preprocess_once (read : Bytes → Reading) (n : Nat) : ReplacesOnce read n := by
  induction n with
  | zero =>
    intro path chain content loaded x hread hcontent h
    cases h
  | succ n ih =>
    intro path chain content loaded x hread hcontent h
    have hrefs : ∀ v, .ref v ∈ (getlines 10 content).map (lineItem (parentPath path)) → AllReadable read v := by
      intro v hv u hu
      rw [← items_eq hcontent] at hv
      exact hread u (.head hv hu)
    obtain ⟨hend, t, ht, honce⟩ := preprocessLines_once ih rfl hrefs h
    rw [items_eq hcontent, ht]
    exact ⟨hend, honce⟩

end Once

/-! ## The load comes to an end -/

section Acyclic

variable {fs : FileSystem} {path content : Bytes} {fuel : Nat} {x : Expansion} {text : Bytes} {paths : List Bytes}
  {dropped : Bytes}

theorem ref_of_mem_includes {read : Bytes → Reading} {u v : Bytes} (h : v ∈ includes read u) :
    Ref (items read) u v := by
  unfold includes at h
  unfold Ref items
  cases hread : read u with
  | closed | throws =>
    rw [hread] at h
    cases h
  | contents content =>
    rw [hread] at h
    obtain ⟨line, hline, htarget⟩ := List.mem_filterMap.mp h
    refine List.mem_map.mpr ⟨line, hline, ?_⟩
    unfold target at htarget
    split_ifs at htarget with hinclude
    obtain ⟨hname, -⟩ := Option.filter_eq_some_iff.mp htarget
    obtain ⟨name, hfile, rfl⟩ := Option.map_eq_some_iff.mp hname
    rw [lineItem, if_pos hinclude, hfile]

/-- Along a chain of nested includes, every path is reached from the later ones of the chain. -/
theorem followed_reached {u₀ : Bytes} {S₀ S : Set Bytes} {chain : List Bytes}
    (h : Dfs.Followed (includes fs.read) (breaks fs.read) u₀ S₀ chain S) :
    chain.Pairwise (fun v u => TransGen (Ref (items fs.read)) u v) ∧
      ∀ u ∈ chain, ReflTransGen (Ref (items fs.read)) u₀ u := by
  induction h with
  | root => simp [ReflTransGen.refl]
  | @step u v above before after S h hnext hS hnew hgoes ih =>
    obtain ⟨hpair, hreach⟩ := ih
    have huv : Ref (items fs.read) u v := ref_of_mem_includes (by rw [hnext]; simp)
    have hv : ∀ w ∈ u :: above, TransGen (Ref (items fs.read)) w v := by
      intro w hw
      rcases List.mem_cons.mp hw with rfl | hw
      · exact .single huv
      · exact (List.rel_of_pairwise_cons hpair hw).tail huv
    refine ⟨List.pairwise_cons.mpr ⟨hv, hpair⟩, fun w hw => ?_⟩
    rcases List.mem_cons.mp hw with rfl | hw
    · exact (hreach u List.mem_cons_self).tail huv
    · exact hreach w hw

theorem AcyclicIncludes.spelledOnce (h : AcyclicIncludes fs path) (c : Config) : SpelledOnce fs c path := by
  refine spelledOnce_iff.mpr fun chain S hchain => ?_
  obtain ⟨hpair, hreach⟩ := followed_reached hchain
  rw [List.Nodup, List.pairwise_map]
  exact hpair.imp_of_mem fun {v u} hv hu huv => (h.acyclic u v (hreach u hu) huv).symm

theorem AcyclicIncludes.expands (h : AcyclicIncludes fs path) (hread : fs.read path = .contents content) :
    ∃ fuel x, (⟨∅, []⟩ : Config).expand fs.read fuel path content = some x := by
  have hend : IncludesEnd fs ⟨∅, []⟩ path := (includesEnd_iff fs _ path).mpr fun _ _ => h.spelledOnce _
  obtain ⟨fuel, x, hx, -⟩ := hend (by simp) content hread
  exact ⟨fuel, x, hx⟩

/-! ## What it parses -/

theorem AcyclicIncludes.exists_full (h : AcyclicIncludes fs path) :
    ∃ text paths dropped, Full (items fs.read) (items fs.read path) text paths dropped := by
  refine Unfold.exists_full fun v (hv : Ref (items fs.read) path v) => ?_
  refine acc_of_acyclic fs.resolve fs.places.finite_toSet (fun u hu => ?_) fun u w hu hw => ?_
  · obtain ⟨content, hcontent⟩ := h.readable u (.head hv hu.to_reflTransGen)
    exact fs.resolve_mem hcontent
  · exact h.acyclic u w (.head hv hu) hw

theorem AcyclicIncludes.not_mem (h : AcyclicIncludes fs path)
    (hfull : Full (items fs.read) (items fs.read path) text paths dropped) : path ∉ paths := by
  intro hmem
  obtain ⟨u, hu, hpath⟩ := hfull.reached path hmem
  exact h.acyclic path path .refl (.head' hu hpath) rfl

theorem text_eq_iff (h : AcyclicIncludes fs path) (hread : fs.read path = .contents content)
    (hx : (⟨∅, []⟩ : Config).expand fs.read fuel path content = some x)
    (hfull : Full (items fs.read) (items fs.read path) text paths dropped) :
    x.text = text ↔ dropped = [] ∧ ∀ v, 2 ≤ paths.count v → Empty (items fs.read) v := by
  have honce : Once (items fs.read) [path] (items fs.read path) x.text x.loaded :=
    (preprocess_once fs.read fuel path _ content _ x h.readable hread hx).2
  rw [once_eq_iff honce hfull]
  refine and_congr_right fun _ => forall_congr' fun v => ⟨fun hempty hcount => ?_, fun hempty hv hskipped => ?_⟩
  · exact hempty (List.count_pos_iff.mp (by omega)) (.inr hcount)
  · refine hempty (hskipped.resolve_left fun hmem => h.not_mem hfull ?_)
    rwa [← List.mem_singleton.mp hmem]

/-- What is parsed is the file with all includes replaced exactly when it has no `#include` line without a file name, and
what is included at two places comes to nothing. -/
theorem expandsInFull_iff (h : AcyclicIncludes fs path) : ExpandsInFull fs path ↔
    ∀ text paths dropped, Full (items fs.read) (items fs.read path) text paths dropped →
      dropped = [] ∧ ∀ v, 2 ≤ paths.count v → Empty (items fs.read) v := by
  constructor
  · rintro ⟨content, fuel, x, paths', dropped', hread, hx, -, hfull'⟩ text paths dropped hfull
    exact (text_eq_iff h hread hx hfull).mp (full_unique hfull' hfull).1
  · intro hcond
    obtain ⟨content, hread⟩ := h.readable path .refl
    obtain ⟨fuel, x, hx⟩ := h.expands hread
    obtain ⟨text, paths, dropped, hfull⟩ := h.exists_full
    have htext : x.text = text := (text_eq_iff h hread hx hfull).mpr (hcond text paths dropped hfull)
    rw [← htext] at hfull
    have hend := (preprocess_once fs.read fuel path _ content _ x h.readable hread hx).1
    exact ⟨content, fuel, x, paths, dropped, hread, hx, hend, hfull⟩

/-! ### A file that is included again -/

/-- A file that includes one other file only, which includes none. -/
theorem acyclicIncludes_of_leaf (v content content' : Bytes) (hpath : fs.read path = .contents content)
    (hv : fs.read v = .contents content')
    (hne : fs.resolve path ≠ fs.resolve v) (hrefs : ∀ u, .ref u ∈ items fs.read path → u = v)
    (hleaf : ∀ u, .ref u ∉ items fs.read v) : AcyclicIncludes fs path := by
  have hreach : ∀ u, ReflTransGen (Ref (items fs.read)) path u → u = path ∨ u = v := by
    intro u hu
    induction hu with
    | refl => exact .inl rfl
    | tail _ huw ih =>
      rcases ih with rfl | rfl
      · exact .inr (hrefs _ huw)
      · exact absurd huw (hleaf _)
  constructor
  · intro u hu
    rcases hreach u hu with rfl | rfl
    · exact ⟨_, hpath⟩
    · exact ⟨_, hv⟩
  · intro u w hu huw
    obtain ⟨x, hux, hxw⟩ := TransGen.head'_iff.mp huw
    rcases hreach u hu with rfl | rfl
    · obtain rfl := hrefs x hux
      rcases ReflTransGen.cases_head hxw with rfl | ⟨y, hxy, -⟩
      · exact hne
      · exact absurd hxy (hleaf y)
    · exact absurd hux (hleaf x)

end Acyclic

/-- `/m` includes `c` before its own line. -/
def includedOnce : FileSystem :=
  ⟨[], OrdMap.ofList [([ascii "c"], ascii "k = 1\n"), ([ascii "m"], ascii "#include \"c\"\nk = 2\n")], []⟩

/-- `/m` includes `c` before and after its own line. -/
def includedTwice : FileSystem :=
  ⟨[], OrdMap.ofList
    [([ascii "c"], ascii "k = 1\n"), ([ascii "m"], ascii "#include \"c\"\nk = 2\n#include \"c\"\n")], []⟩

theorem full_line {read : Bytes → Reading} {path line : Bytes} (h : items read path = [.keep line]) :
    Full (items read) (items read path) (line ++ []) [] [] := by
  rw [h]
  exact .keep .nil

theorem includedTwice_items : items includedTwice.read (ascii "/m") =
    [.ref (ascii "/c"), .keep (ascii "k = 2\n"), .ref (ascii "/c")] := by
  decide

theorem includedTwice_leaf : items includedTwice.read (ascii "/c") = [.keep (ascii "k = 1\n")] := by
  decide

theorem includedTwice_acyclic : AcyclicIncludes includedTwice (ascii "/m") := by
  refine acyclicIncludes_of_leaf (ascii "/c") (ascii "#include \"c\"\nk = 2\n#include \"c\"\n") (ascii "k = 1\n")
    (by decide) (by decide) (by decide) (fun u hu => ?_) fun u hu => ?_
  · simpa [includedTwice_items] using hu
  · simp [includedTwice_leaf] at hu

/-- The second include is lost, so that the value of the file itself wins over that of the file included after it. -/
theorem not_expandsInFull : ¬ ∀ fs path, AcyclicIncludes fs path → ExpandsInFull fs path := by
  intro hclaim
  obtain ⟨content, fuel, x, paths, dropped, hread, hx, -, hfull⟩ := hclaim includedTwice (ascii "/m") includedTwice_acyclic
  have hleaf := full_line includedTwice_leaf
  have hitems : ∃ text, Full (items includedTwice.read) (items includedTwice.read (ascii "/m")) text
      [ascii "/c", ascii "/c"] [] := by
    rw [includedTwice_items]
    exact ⟨_, .ref hleaf (.keep (.ref hleaf .nil))⟩
  obtain ⟨text, htwice⟩ := hitems
  obtain ⟨-, hempty⟩ := (text_eq_iff includedTwice_acyclic hread hx htwice).mp (full_unique hfull htwice).1
  obtain ⟨rs, l, hnil⟩ := hempty (ascii "/c") (by decide +kernel)
  have habsurd := (full_unique hnil hleaf).1
  revert habsurd
  decide +kernel

/-- A file that is included at one place only. -/
theorem expandsInFull_includedOnce :
    AcyclicIncludes includedOnce (ascii "/m") ∧ ExpandsInFull includedOnce (ascii "/m") := by
  have hitems : items includedOnce.read (ascii "/m") = [.ref (ascii "/c"), .keep (ascii "k = 2\n")] := by decide +kernel
  have hleaf : items includedOnce.read (ascii "/c") = [.keep (ascii "k = 1\n")] := by decide +kernel
  have hacyclic : AcyclicIncludes includedOnce (ascii "/m") := by
    refine acyclicIncludes_of_leaf (ascii "/c") (ascii "#include \"c\"\nk = 2\n") (ascii "k = 1\n")
      (by decide) (by decide) (by decide) (fun u hu => ?_) fun u hu => ?_
    · simpa [hitems] using hu
    · simp [hleaf] at hu
  have hexpansion : ∃ text, Full (items includedOnce.read) (items includedOnce.read (ascii "/m")) text [ascii "/c"] [] := by
    rw [hitems]
    exact ⟨_, .ref (full_line hleaf) (.keep .nil)⟩
  obtain ⟨text, hfull⟩ := hexpansion
  refine ⟨hacyclic, (expandsInFull_iff hacyclic).mpr fun text' paths dropped hfull' => ?_⟩
  obtain ⟨-, rfl, rfl⟩ := full_unique hfull hfull'
  refine ⟨rfl, fun v hv => ?_⟩
  have hcount := List.count_le_length (a := v) (l := [ascii "/c"])
  rw [List.length_singleton] at hcount
  omega

end Passdoq.Runcom
