import Passdoq.Runcom.Lined

/-!
# What the program looks up

`Config::get_string`, and the one key that `Application::run` looks up.

* `Identified values` : every key is an identifier of the grammar; `load_identified`, `loadDefaults_identified` : loading
  keeps this, also where it fails halfway;
* `getString_vaultPath` : so the key `vault.path` is never found;
* `selects_documented` : under the key that the documentation gives, every path can be set.
-/

namespace Passdoq.Runcom

open Peg

def Config.getString (c : Config) (key default : Bytes) : Bytes :=
  match c.values.find? key with
  | none => default
  | some v => if v.type = .string then v.stringValue else default

/-! ## The keys of a configuration -/

/-- Every key is an identifier. -/
def Identified (values : OrdMap Bytes Value) : Prop := ∀ k v, values.find? k = some v → IsIdentifier k

section Keys

variable {values : OrdMap Bytes Value} {xs : List (Bytes × Value)} {x : Bytes × Value} {w r content : Bytes}

theorem identified_empty : Identified ∅ := nofun

theorem Assigns.key (h : Assigns w r x) : IsIdentifier x.1 := by
  obtain ⟨hk, -, -, -⟩ := h
  exact hk

theorem Statement.keys (h : Statement w r xs) : ∀ x ∈ xs, IsIdentifier x.1 := by
  cases h with
  | comment => nofun
  | assignment hw₁ ha hw₂ ht he =>
    intro x hx
    rw [List.mem_singleton.mp hx]
    exact ha.key

theorem Blocks.keys (h : Blocks content xs) : ∀ x ∈ xs, IsIdentifier x.1 := by
  induction h with
  | nil => nofun
  | cons hstatement hrest ih =>
    intro x hx
    rcases List.mem_append.mp hx with hx | hx
    · exact hstatement.keys x hx
    · exact ih x hx

theorem Halts.keys (h : Halts content xs) : ∀ x ∈ xs, IsIdentifier x.1 := by
  induction h with
  | assigned hno hw ha =>
    intro x hx
    rw [List.mem_singleton.mp hx]
    exact ha.key
  | plain => nofun
  | cons hstatement hrest ih =>
    intro x hx
    rcases List.mem_append.mp hx with hx | hx
    · exact hstatement.keys x hx
    · exact ih x hx

theorem Identified.stored (h : Identified values) (hx : IsIdentifier x.1) : Identified (stored values x) := by
  intro k v hfind
  unfold Runcom.stored at hfind
  split_ifs at hfind with hempty
  · exact h k v hfind
  · rw [OrdMap.find?_insert] at hfind
    split_ifs at hfind with hk
    · exact hk ▸ hx
    · exact h k v hfind

theorem Identified.foldl (h : Identified values) (hxs : ∀ x ∈ xs, IsIdentifier x.1) :
    Identified (xs.foldl Runcom.stored values) := by
  induction xs generalizing values with
  | nil => exact h
  | cons x xs ih =>
    obtain ⟨hx, hxs⟩ := List.forall_mem_cons.mp hxs
    exact ih (h.stored hx) hxs

theorem parsePrl_identified {fuel : Nat} {b : Bool} {after : OrdMap Bytes Value} (h : Identified values)
    (hparse : parsePrl fuel content values = some (b, after)) : Identified after := by
  rcases blocks_or_halts hparse with ⟨xs, hxs⟩ | ⟨xs, hxs⟩
  · rw [(hxs.parsePrl hparse).2]
    exact h.foldl hxs.keys
  · rw [(hxs.parsePrl hparse).2]
    exact h.foldl hxs.keys

end Keys

section Lookup

variable {found : Bytes → Except Exn Bool} {read : Bytes → Reading} {fuel : Nat} {path : Bytes} {paths : List Bytes}
  {c c' : Config} {r : Except Exn Bool}

theorem load_identified (h : Identified c.values) (hload : load read fuel path c = some (r, c')) :
    Identified c'.values := by
  obtain ⟨-, -, rfl⟩ | ⟨-, ⟨e, -, -, hvalues⟩ | ⟨content, x, b, -, -, -, -, -, hparse⟩⟩ := load_cases hload
  · exact h
  · rw [hvalues]
    exact h
  · exact parsePrl_identified h hparse

theorem loadDefaults_identified (h : Identified c.values) (hload : loadDefaults found read fuel paths c = some (r, c')) :
    Identified c'.values := by
  induction paths generalizing c with
  | nil =>
    obtain ⟨-, rfl⟩ := Prod.mk.inj (Option.some.inj hload)
    exact h
  | cons path paths ih =>
    rcases hfound : found path with e | (_ | _)
    · rw [loadDefaults, hfound] at hload
      obtain ⟨-, rfl⟩ := Prod.mk.inj (Option.some.inj hload)
      exact h
    · rw [loadDefaults_notFound hfound] at hload
      exact ih h hload
    obtain ⟨r₁, c₁, hone, hgo⟩ := loadDefaults_found hload hfound
    have h₁ := load_identified h hone
    obtain ⟨-, -, -, rfl⟩ | ⟨-, -, rfl⟩ | ⟨-, hgo⟩ := hgo
    · exact h₁
    · exact h₁
    · exact ih h₁ hgo

/-- The key that `Application::run` looks up. -/
def vaultPathKey : Bytes := ascii "vault.path"

theorem not_identifier_vaultPathKey : ¬ IsIdentifier vaultPathKey := by
  rintro ⟨c, u, hkey, -, hu⟩
  have hrest : u = ascii "ault.path" := (List.cons.inj hkey).2.symm
  have hdot : (46 : UInt8) ∈ u := by
    rw [hrest]
    decide
  exact absurd (hu 46 hdot) (by decide)

/-- A configuration that was only loaded gives the default for that key. -/
theorem getString_vaultPath (h : Identified c.values) (default : Bytes) : c.getString vaultPathKey default = default := by
  unfold Config.getString
  cases hfind : c.values.find? vaultPathKey with
  | none => rfl
  | some v => exact absurd (h vaultPathKey v hfind) not_identifier_vaultPathKey

/-- Where `Application::run` has its vault, when `given` is the path it begins with. -/
def vaultPath (c : Config) (given : Bytes) (home : Option Bytes) : Bytes :=
  let path :=
    if given = [] ∨ given = ascii "~/.passdoq.vault" then c.getString vaultPathKey (ascii "~/.passdoq.vault") else given
  if path.head? = some 126 then
    match home with
    | none => path
    | some home => home ++ path.drop 1
  else path

/-- The default files have no say in it. -/
theorem vaultPath_loadDefaults (hload : loadDefaults found read fuel paths ⟨∅, []⟩ = some (r, c)) (given : Bytes)
    (home : Option Bytes) : vaultPath c given home = vaultPath ⟨∅, []⟩ given home := by
  unfold vaultPath
  rw [getString_vaultPath (loadDefaults_identified identified_empty hload), getString_vaultPath identified_empty]

/-- Some file sets `key` to `v` in an empty configuration, whatever the default of the lookup is. -/
def Selects (key v : Bytes) : Prop :=
  ∃ read fuel path r c, load read fuel path ⟨∅, []⟩ = some (r, c) ∧ ∀ default, c.getString key default = v

theorem getString_not_const {v : Bytes} (hload : load read fuel path ⟨∅, []⟩ = some (r, c)) :
    ¬ ∀ default, c.getString vaultPathKey default = v := by
  intro hget
  have hdefault := getString_vaultPath (load_identified identified_empty hload) (0 :: v)
  exact List.cons_ne_self 0 v (hdefault.symm.trans (hget (0 :: v)))

/-- No vault can be selected by a file. -/
theorem not_selects (v : Bytes) : ¬ Selects vaultPathKey v := by
  rintro ⟨read, fuel, path, r, c, hload, hget⟩
  exact getString_not_const hload hget

/-! ## The documented key -/

/-- A path without blanks, comment signs and quotes that does not begin like a boolean, a number or a list. -/
structure PlainPath (v : Bytes) : Prop where
  ne_nil : v ≠ []
  plain : ∀ c ∈ v, isSpace c = false ∧ c ≠ 35 ∧ c ≠ 34
  no_list : v.head? ≠ some 91
  no_boolean : ∀ w ∈ booleans, ¬ w <+: v
  no_integer : ∀ w, w <+: v → ¬ IsInteger w

variable {v : Bytes}

theorem PlainPath.reads (h : PlainPath v) (r : Bytes) : Reads v (32 :: r) (.fromString v) := by
  have hstops : Stops isBare (32 :: r) := stops_cons (by decide)
  have hquote : v.head? ≠ some 34 := fun hhead => (h.plain 34 (List.mem_of_mem_head? hhead)).2.2 rfl
  have hbare : ∀ c ∈ v, isBare c := by
    intro c hc
    obtain ⟨hspace, hhash, -⟩ := h.plain c hc
    exact isBare_of_not_isSpace hspace hhash
  have hhead : (v ++ 32 :: r).head? ≠ some 91 := by
    rw [List.head?_append_of_ne_nil _ h.ne_nil]
    exact h.no_list
  have hread : Reads v (32 :: r) (.fromString (Action.unquote v)) :=
    .string (listless_of_head hhead) ((absent_booleanToken hstops).mpr h.no_boolean)
      ((absent_integerToken hstops).mpr h.no_integer)
      (.inr ⟨absent_quoted_of_head hquote h.ne_nil, h.ne_nil, hbare, hstops⟩)
  rwa [unquote_of_head hquote] at hread

theorem load_of_blocks {content : Bytes} {xs : List (Bytes × Value)} (hblocks : Blocks content xs) (hlined : Lined content)
    (path : Bytes) :
    ∃ fuel, load (fun _ => .contents content) fuel path ⟨∅, []⟩ = some (.ok true, ⟨xs.foldl stored ∅, [path]⟩) := by
  obtain ⟨fuel, hparse⟩ := parsePrl_true.mpr ⟨_, hblocks, rfl⟩
  obtain ⟨o, hrun, ho⟩ := Option.map_eq_some_iff.mp hparse
  have hmore : parsePrl (fuel + 1) content ∅ = _ := Option.map_eq_some_iff.mpr ⟨o, run_succ hrun, ho⟩
  refine ⟨fuel + 1, ?_⟩
  unfold load
  rw [if_neg List.not_mem_nil]
  show ((Config.expand _ _ _ _ _).bind _) = _
  rw [expand_lined hlined, Option.bind_some]
  dsimp only
  rw [hmore]
  rfl

/-- A file sets the documented key to any such path. -/
theorem selects_documented (h : PlainPath v) : Selects (ascii "vault_path") v := by
  have hkey : IsIdentifier (ascii "vault_path") := ⟨118, ascii "ault_path", by decide, by decide, by decide⟩
  have hspace : ∀ c ∈ v.head?, isSpace c = false := fun c hc => (h.plain c (List.mem_of_mem_head? hc)).1
  have hnewline : 10 ∉ v := fun hmem => absurd (h.plain 10 hmem).1 (by decide)
  have hblocks := Blocks.cons (statement_of_reads hkey (fun r => h.reads (35 :: 10 :: r)) hspace []) .nil
  have hlined := (lined_statement hkey (not_infix_of_not_mem hnewline)).append lined_nil
  obtain ⟨fuel, hload⟩ := load_of_blocks hblocks hlined []
  have hvalue : Value.fromString v ≠ .fromString [] := fun he => h.ne_nil (congrArg Value.stringValue he)
  have hstored : ([(ascii "vault_path", Value.fromString v)] ++ []).foldl stored ∅ =
      OrdMap.insert ∅ (ascii "vault_path") (.fromString v) := stored_of_ne ∅ hvalue
  rw [hstored] at hload
  refine ⟨_, fuel, [], .ok true, _, hload, fun default => ?_⟩
  unfold Config.getString
  rw [OrdMap.find?_insert_self]
  rfl

/-- An absolute path begins neither like a boolean nor like a number or a list. -/
theorem plainPath_absolute {u : Bytes} (hu : ∀ c ∈ u, isSpace c = false ∧ c ≠ 35 ∧ c ≠ 34) : PlainPath (47 :: u) where
  ne_nil := List.cons_ne_nil 47 u
  plain := List.forall_mem_cons.mpr ⟨by decide, hu⟩
  no_list := by simp
  no_boolean := by
    intro w hw hprefix
    have hheads : ∀ w ∈ booleans, w.head? ≠ some 47 ∧ w ≠ [] := by decide
    obtain ⟨c, w, rfl⟩ := List.exists_cons_of_ne_nil (hheads w hw).2
    obtain ⟨rfl, -⟩ := List.cons_prefix_cons.mp hprefix
    exact (hheads _ hw).1 rfl
  no_integer := by
    rintro w hprefix ⟨ds, hw, hne, hds⟩
    obtain ⟨d, ds, rfl⟩ := List.exists_cons_of_ne_nil hne
    rcases hw with rfl | rfl
    · obtain ⟨rfl, -⟩ := List.cons_prefix_cons.mp hprefix
      exact absurd (hds 47 List.mem_cons_self) (by decide)
    · exact absurd (List.cons_prefix_cons.mp hprefix).1 (by decide)

/-- No file selects a vault at `/home/user/.vault`. -/
theorem not_selects_plain : ¬ ∀ v, PlainPath v → Selects vaultPathKey v := by
  intro h
  have hplain : PlainPath (47 :: ascii "home/user/.vault") := plainPath_absolute (by decide +kernel)
  obtain ⟨read, fuel, path, r, c, hload, hget⟩ := h _ hplain
  exact getString_not_const hload hget

end Lookup

end Passdoq.Runcom
