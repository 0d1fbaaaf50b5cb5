import Mathlib

/-!
# Byte strings

* `Bytes` : a byte string, the value of a `std::string` or of a `std::vector<uint8_t>`;
* the order on bytes, hence (lexicographically) on byte strings, that `std::map` keys are kept in;
* `ascii` : the bytes of a literal;
* `Block n` : a byte string of exactly `n` bytes;
* `getlines` : the lines of a text; `splitOn_getlines` : they are the pieces between the delimiters.
-/

/-- A byte string. -/
abbrev Bytes := List UInt8

instance linearOrderUInt8 : LinearOrder UInt8 where
  le_refl := UInt8.le_refl
  le_trans _ _ _ := UInt8.le_trans
  lt_iff_le_not_ge _ _ := by simp only [UInt8.le_iff_toNat_le, UInt8.lt_iff_toNat_lt]; omega
  le_antisymm _ _ := UInt8.le_antisymm
  le_total := UInt8.le_total
  toDecidableLE := inferInstance
  toDecidableLT := inferInstance
  toDecidableEq := inferInstance

instance lawfulBEqBytes : LawfulBEq Bytes := inferInstance

/-- What holds of all bytes of a string is looked up in the string, not among all bytes. -/
instance decidableForallMemBytes (b : Bytes) (p : UInt8 → Prop) [DecidablePred p] : Decidable (∀ c ∈ b, p c) :=
  List.decidableBAll p b

/-- The bytes of an ASCII literal. -/
def ascii (s : String) : Bytes := s.toList.map fun c => UInt8.ofNat c.toNat

/-- A byte string of exactly `n` bytes. -/
abbrev Block (n : Nat) := { b : Bytes // b.length = n }

/-- The block of `n` copies of `b`. -/
def Block.const (n : Nat) (b : UInt8) : Block n := ⟨List.replicate n b, List.length_replicate⟩

/-- The first `n` bytes of `b`, padded with zeros when it is shorter. -/
def Block.pad (n : Nat) (b : Bytes) : Block n :=
  ⟨(b ++ List.replicate n 0).take n, by simp⟩

theorem Block.pad_of_length {n : Nat} {b : Bytes} (h : b.length = n) : Block.pad n b = ⟨b, h⟩ :=
  Subtype.ext (by simp [Block.pad, ← h])

/-- The lines that `std::getline` with the delimiter `d` reads until it fails. -/
def getlines (d : UInt8) : Bytes → List Bytes
  | [] => []
  | c :: s => if c = d then [] :: getlines d s
    else match getlines d s with
      | [] => [[c]]
      | line :: lines => (c :: line) :: lines

/-- The lines are the pieces between the delimiters, but for an empty last one. -/
theorem splitOn_getlines (d : UInt8) (s : Bytes) :
    s.splitOn d = getlines d s ∨ s.splitOn d = getlines d s ++ [[]] := by
  induction s with
  | nil => exact .inr rfl
  | cons c s ih =>
    rw [List.splitOn_cons_eq_if_modifyHead, getlines]
    by_cases hc : c = d
    · rw [if_pos (beq_iff_eq.mpr hc), if_pos hc]
      rcases ih with h | h
      · exact .inl (by rw [h])
      · exact .inr (by rw [h]; rfl)
    · rw [if_neg fun h => hc (beq_iff_eq.mp h), if_neg hc]
      have hne := List.splitOn_ne_nil d s
      cases hlines : getlines d s with
      | nil =>
        rw [hlines] at ih
        have hone : s.splitOn d = [[]] := ih.resolve_left hne
        rw [hone]
        exact .inl rfl
      | cons line lines =>
        rw [hlines] at ih
        rcases ih with h | h
        · exact .inl (by rw [h]; rfl)
        · exact .inr (by rw [h]; rfl)

theorem not_mem_of_mem_getlines {d : UInt8} {s line : Bytes} (h : line ∈ getlines d s) : d ∉ line := by
  induction s generalizing line with
  | nil => cases h
  | cons c s ih =>
    rw [getlines] at h
    split_ifs at h with hc
    · rcases List.mem_cons.mp h with rfl | h
      · exact List.not_mem_nil
      · exact ih h
    · have hfirst : ∀ {first : Bytes}, d ∉ first → d ∉ c :: first := by
        intro first hnot hmem
        rcases List.mem_cons.mp hmem with hd | hmem
        · exact hc hd.symm
        · exact hnot hmem
      cases hlines : getlines d s with
      | nil =>
        rw [hlines] at h
        obtain rfl := List.mem_singleton.mp h
        exact hfirst List.not_mem_nil
      | cons first lines =>
        rw [hlines] at h ih
        rcases List.mem_cons.mp h with rfl | h
        · exact hfirst (ih List.mem_cons_self)
        · exact ih (List.mem_cons_of_mem first h)

theorem getlines_append {d : UInt8} {line : Bytes} (h : d ∉ line) (s : Bytes) :
    getlines d (line ++ d :: s) = line :: getlines d s := by
  induction line with
  | nil => exact if_pos rfl
  | cons c line ih =>
    obtain ⟨hc, hline⟩ := not_or.mp (mt List.mem_cons.mpr h)
    show (if c = d then _ else _) = _
    rw [if_neg (Ne.symm hc)]
    show (match getlines d (line ++ d :: s) with
      | [] => [[c]]
      | first :: lines => (c :: first) :: lines) = _
    rw [ih hline]
