import Passdoq.Lib.Msgpack
import Mathlib

/-!
# The MessagePack format

`spec` is the byte format of the MessagePack specification as an instance of `Format`: a packer that
chooses the shortest header, an unpacker for every leading byte. `spec_lawful`: unpacking undoes packing;
`spec_short`: no string or binary that is unpacked has `2^32` bytes; `spec_whole`: a packed object cut short does not
unpack.
-/

namespace Msgpack

/-- `n` as `k` bytes, most significant first. -/
def bigEndian : Nat → Nat → Bytes
  | 0, _ => []
  | k + 1, n => bigEndian k (n / 256) ++ [UInt8.ofNat n]

/-- The number that bytes denote, most significant first. -/
def ofBigEndian (b : Bytes) : Nat := b.foldl (fun n x => 256 * n + x.toNat) 0

theorem length_bigEndian (k n : Nat) : (bigEndian k n).length = k := by
  induction k generalizing n with
  | zero => rfl
  | succ k ih => simp [bigEndian, ih]

theorem ofBigEndian_bigEndian (k n : Nat) (h : n < 256 ^ k) : ofBigEndian (bigEndian k n) = n := by
  induction k generalizing n with
  | zero => simp at h; simp [bigEndian, ofBigEndian, h]
  | succ k ih =>
    have hk : n / 256 < 256 ^ k := by
      rw [pow_succ] at h
      omega
    have := ih (n / 256) hk
    unfold ofBigEndian at this ⊢
    simp only [bigEndian, List.foldl_append, this, List.foldl_cons, List.foldl_nil, UInt8.toNat_ofNat']
    omega

/-- The first `n` bytes and the rest, when there are that many. -/
def splitBytes (n : Nat) (b : Bytes) : Option (Bytes × Bytes) :=
  if n ≤ b.length then some (b.take n, b.drop n) else none

theorem splitBytes_append {n : Nat} {b : Bytes} (h : b.length = n) (rest : Bytes) :
    splitBytes n (b ++ rest) = some (b, rest) := by
  subst h
  simp [splitBytes]

/-- Read `n` objects with `dec`. -/
def many (dec : Bytes → Option (Obj × Bytes)) : Nat → Bytes → Option (List Obj × Bytes)
  | 0, b => some ([], b)
  | n + 1, b => do
    let (x, b) ← dec b
    let (xs, b) ← many dec n b
    some (x :: xs, b)

/-- Read `n` pairs with `dec`. -/
def manyPairs (dec : Bytes → Option (Obj × Bytes)) : Nat → Bytes → Option (List (Obj × Obj) × Bytes)
  | 0, b => some ([], b)
  | n + 1, b => do
    let (k, b) ← dec b
    let (v, b) ← dec b
    let (kvs, b) ← manyPairs dec n b
    some ((k, v) :: kvs, b)

/-- A length of `w` bytes, then what `body` reads with it. -/
def sized {α : Type} (w : Nat) (body : Nat → Bytes → Option α) (b : Bytes) : Option α := do
  let (len, b) ← splitBytes w b
  body (ofBigEndian len) b

/-- `n` bytes, then `f` of them. -/
def raw (f : Bytes → Obj) (n : Nat) (b : Bytes) : Option (Obj × Bytes) :=
  (splitBytes n b).map fun p => (f p.1, p.2)

/-- A type byte and `n` bytes. -/
def rawExt (n : Nat) (b : Bytes) : Option (Obj × Bytes) := do
  let (t, b) ← splitBytes 1 b
  let (s, b) ← splitBytes n b
  some (.ext (t.headD 0) s, b)

def arrayOf (dec : Bytes → Option (Obj × Bytes)) (n : Nat) (b : Bytes) : Option (Obj × Bytes) :=
  (many dec n b).map fun p => (.arr p.1, p.2)

def mapOf (dec : Bytes → Option (Obj × Bytes)) (n : Nat) (b : Bytes) : Option (Obj × Bytes) :=
  (manyPairs dec n b).map fun p => (.map p.1, p.2)

/-- A two's complement number of `w` bytes. -/
def signed (w : Nat) (b : Bytes) : Obj :=
  let n := ofBigEndian b
  if n < 128 * 256 ^ (w - 1) then .uint n else .nint (n - 256 ^ w)

/-- Read what follows the leading byte `t`, with `dec` for the objects inside it. -/
def decodeTail (dec : Bytes → Option (Obj × Bytes)) (t : Nat) (b : Bytes) : Option (Obj × Bytes) :=
  if t < 0x80 then some (.uint t, b)
  else if t < 0x90 then mapOf dec (t - 0x80) b
  else if t < 0xa0 then arrayOf dec (t - 0x90) b
  else if t < 0xc0 then raw .str (t - 0xa0) b
  else if t = 0xc0 then some (.nil, b)
  else if t = 0xc1 then none
  else if t = 0xc2 then some (.bool false, b)
  else if t = 0xc3 then some (.bool true, b)
  else if t < 0xc7 then sized (2 ^ (t - 0xc4)) (raw .bin) b
  else if t < 0xca then sized (2 ^ (t - 0xc7)) rawExt b
  else if t < 0xcc then raw .float (4 * 2 ^ (t - 0xca)) b
  else if t < 0xd0 then raw (fun s => .uint (ofBigEndian s)) (2 ^ (t - 0xcc)) b
  else if t < 0xd4 then raw (signed (2 ^ (t - 0xd0))) (2 ^ (t - 0xd0)) b
  else if t < 0xd9 then rawExt (2 ^ (t - 0xd4)) b
  else if t < 0xdc then sized (2 ^ (t - 0xd9)) (raw .str) b
  else if t < 0xde then sized (2 * 2 ^ (t - 0xdc)) (arrayOf dec) b
  else if t < 0xe0 then sized (2 * 2 ^ (t - 0xde)) (mapOf dec) b
  else some (.nint (t - 0x100), b)

/-- Read one object that nests at most `fuel` deep. -/
def decode : Nat → Bytes → Option (Obj × Bytes)
  | 0, _ => none
  | _ + 1, [] => none
  | fuel + 1, t :: b => decodeTail (decode fuel) t.toNat b

/-- A header: `short + n` in one byte below `bound`, else `long + i` and `n` in the first of the `widths` it fits. -/
def header (short bound : Nat) (wide : List (Nat × Nat)) (n : Nat) : Bytes :=
  if n < bound then [UInt8.ofNat (short + n)]
  else match wide.find? fun p => n < 256 ^ p.2 with
    | some (t, w) => UInt8.ofNat t :: bigEndian w n
    | none => []

/-- The format of the MessagePack specification. -/
def spec : Format where
  arrayHeader n := header 0x90 16 [(0xdc, 2), (0xdd, 4)] n.toNat
  mapHeader n := header 0x80 16 [(0xde, 2), (0xdf, 4)] n.toNat
  strHeader n := header 0xa0 32 [(0xd9, 1), (0xda, 2), (0xdb, 4)] n.toNat
  binHeader n := header 0 0 [(0xc4, 1), (0xc5, 2), (0xc6, 4)] n.toNat
  uint32 n := header 0 128 [(0xcc, 1), (0xcd, 2), (0xce, 4)] n.toNat
  unpack b := (decode (b.length + 1) b).map Prod.fst

/-! ## Headers -/

theorem header_cases (short bound : Nat) (wide : List (Nat × Nat)) (n : Nat) (hn : ∃ p ∈ wide, n < 256 ^ p.2) :
    (n < bound ∧ header short bound wide n = [UInt8.ofNat (short + n)]) ∨
      ∃ p ∈ wide, n < 256 ^ p.2 ∧ header short bound wide n = UInt8.ofNat p.1 :: bigEndian p.2 n := by
  by_cases hb : n < bound
  · exact Or.inl ⟨hb, by simp [header, hb]⟩
  · right
    obtain ⟨p, hp, hlt⟩ := hn
    cases hf : wide.find? fun p => n < 256 ^ p.2 with
    | none => exact absurd hlt (by simpa using List.find?_eq_none.mp hf p hp)
    | some q =>
      refine ⟨q, List.mem_of_find?_eq_some hf, by simpa using List.find?_some hf, ?_⟩
      rw [header, if_neg hb, hf]

theorem sized_bigEndian {α : Type} {w n : Nat} (h : n < 256 ^ w) (body : Nat → Bytes → Option α) (b : Bytes) :
    sized w body (bigEndian w n ++ b) = body n b := by
  simp [sized, splitBytes_append (length_bigEndian w n), ofBigEndian_bigEndian w n h]

theorem raw_append {n : Nat} {s : Bytes} (h : s.length = n) (f : Bytes → Obj) (rest : Bytes) :
    raw f n (s ++ rest) = some (f s, rest) := by
  simp [raw, splitBytes_append h]

theorem toNat_ofNat_of_lt {n : Nat} (h : n < 256) : (UInt8.ofNat n).toNat = n := by
  simp [UInt8.toNat_ofNat', Nat.mod_eq_of_lt h]

section Decode

variable (fuel : Nat) (n : UInt32) (b : Bytes)

theorem decode_arrayHeader : decode (fuel + 1) (spec.arrayHeader n ++ b) = arrayOf (decode fuel) n.toNat b := by
  have hn := n.toNat_lt
  rcases header_cases 0x90 16 [(0xdc, 2), (0xdd, 4)] n.toNat
    ⟨(0xdd, 4), by simp, by omega⟩
    with ⟨hb, he⟩ | ⟨p, hp, hlt, he⟩
  · simp only [spec, he, List.singleton_append, decode, toNat_ofNat_of_lt (show 0x90 + n.toNat < 256 by omega),
      decodeTail, show ¬ 0x90 + n.toNat < 0x80 by omega, show ¬ 0x90 + n.toNat < 0x90 by omega,
      show 0x90 + n.toNat < 0xa0 by omega, if_true, if_false, Nat.add_sub_cancel_left]
  · simp only [List.mem_cons, List.not_mem_nil, or_false] at hp
    rcases hp with rfl | rfl <;> exact (by simp only [spec, he]; rfl : _ = _).trans (sized_bigEndian hlt _ b)

theorem decode_mapHeader : decode (fuel + 1) (spec.mapHeader n ++ b) = mapOf (decode fuel) n.toNat b := by
  have hn := n.toNat_lt
  rcases header_cases 0x80 16 [(0xde, 2), (0xdf, 4)] n.toNat
    ⟨(0xdf, 4), by simp, by omega⟩
    with ⟨hb, he⟩ | ⟨p, hp, hlt, he⟩
  · simp only [spec, he, List.singleton_append, decode, toNat_ofNat_of_lt (show 0x80 + n.toNat < 256 by omega),
      decodeTail, show ¬ 0x80 + n.toNat < 0x80 by omega, show 0x80 + n.toNat < 0x90 by omega, if_true, if_false,
      Nat.add_sub_cancel_left]
  · simp only [List.mem_cons, List.not_mem_nil, or_false] at hp
    rcases hp with rfl | rfl <;> exact (by simp only [spec, he]; rfl : _ = _).trans (sized_bigEndian hlt _ b)

theorem decode_strHeader : decode (fuel + 1) (spec.strHeader n ++ b) = raw .str n.toNat b := by
  have hn := n.toNat_lt
  rcases header_cases 0xa0 32 [(0xd9, 1), (0xda, 2), (0xdb, 4)] n.toNat
    ⟨(0xdb, 4), by simp, by omega⟩ with ⟨hb, he⟩ | ⟨p, hp, hlt, he⟩
  · simp only [spec, he, List.singleton_append, decode, toNat_ofNat_of_lt (show 0xa0 + n.toNat < 256 by omega),
      decodeTail, show ¬ 0xa0 + n.toNat < 0x80 by omega, show ¬ 0xa0 + n.toNat < 0x90 by omega,
      show ¬ 0xa0 + n.toNat < 0xa0 by omega, show 0xa0 + n.toNat < 0xc0 by omega, if_true, if_false,
      Nat.add_sub_cancel_left]
  · simp only [List.mem_cons, List.not_mem_nil, or_false] at hp
    rcases hp with rfl | rfl | rfl <;> exact (by simp only [spec, he]; rfl : _ = _).trans (sized_bigEndian hlt _ b)

theorem decode_binHeader : decode (fuel + 1) (spec.binHeader n ++ b) = raw .bin n.toNat b := by
  have hn := n.toNat_lt
  rcases header_cases 0 0 [(0xc4, 1), (0xc5, 2), (0xc6, 4)] n.toNat
    ⟨(0xc6, 4), by simp, by omega⟩
    with ⟨hb, -⟩ | ⟨p, hp, hlt, he⟩
  · omega
  · simp only [List.mem_cons, List.not_mem_nil, or_false] at hp
    rcases hp with rfl | rfl | rfl <;> exact (by simp only [spec, he]; rfl : _ = _).trans (sized_bigEndian hlt _ b)

theorem decode_uint32 : decode (fuel + 1) (spec.uint32 n ++ b) = some (.uint n.toNat, b) := by
  have hn := n.toNat_lt
  rcases header_cases 0 128 [(0xcc, 1), (0xcd, 2), (0xce, 4)] n.toNat
    ⟨(0xce, 4), by simp, by omega⟩ with ⟨hb, he⟩ | ⟨p, hp, hlt, he⟩
  · simp only [spec, he, List.singleton_append, decode, Nat.zero_add, toNat_ofNat_of_lt (show n.toNat < 256 by omega),
      decodeTail, hb, if_true]
  · have key : ∀ w, n.toNat < 256 ^ w → raw (fun s => .uint (ofBigEndian s)) w (bigEndian w n.toNat ++ b) =
        some (.uint n.toNat, b) := fun w hw => by
      rw [raw_append (length_bigEndian w _), ofBigEndian_bigEndian w _ hw]
    simp only [List.mem_cons, List.not_mem_nil, or_false] at hp
    rcases hp with rfl | rfl | rfl <;> exact (by simp only [spec, he]; rfl : _ = _).trans (key _ hlt)

end Decode

/-! ## Unpacking undoes packing -/

theorem length_header_pos (short bound : Nat) (wide : List (Nat × Nat)) (n : Nat)
    (hn : ∃ p ∈ wide, n < 256 ^ p.2) :
    0 < (header short bound wide n).length := by
  rcases header_cases short bound wide n hn with ⟨-, he⟩ | ⟨p, -, -, he⟩ <;> rw [he] <;> simp

theorem length_spec_pos (n : UInt32) :
    0 < (spec.arrayHeader n).length ∧ 0 < (spec.mapHeader n).length ∧ 0 < (spec.strHeader n).length ∧
      0 < (spec.binHeader n).length ∧ 0 < (spec.uint32 n).length := by
  have hn := n.toNat_lt
  refine ⟨length_header_pos _ _ _ _ ⟨(0xdd, 4), ?_⟩, length_header_pos _ _ _ _ ⟨(0xdf, 4), ?_⟩,
    length_header_pos _ _ _ _ ⟨(0xdb, 4), ?_⟩,
    length_header_pos 0 0 [(0xc4, 1), (0xc5, 2), (0xc6, 4)] n.toNat ⟨(0xc6, 4), ?_⟩,
    length_header_pos _ _ _ _ ⟨(0xce, 4), ?_⟩⟩ <;> exact ⟨by simp, by omega⟩

mutual

/-- Fuel of one unit a byte is enough to read back what was packed. -/
theorem decode_packs : ∀ {o : Obj} {b : Bytes}, Packs spec o b → ∀ fuel rest, b.length ≤ fuel →
    decode fuel (b ++ rest) = some (o, rest)
  | _, _, .uint32 n, fuel, rest, h => by
    obtain ⟨f, rfl⟩ : ∃ f, fuel = f + 1 := ⟨fuel - 1, by have := (length_spec_pos n).2.2.2.2; omega⟩
    exact decode_uint32 f n rest
  | _, _, .str n s hs, fuel, rest, h => by
    rw [List.length_append] at h
    obtain ⟨f, rfl⟩ : ∃ f, fuel = f + 1 := ⟨fuel - 1, by have := (length_spec_pos n).2.2.1; omega⟩
    rw [List.append_assoc, decode_strHeader, raw_append hs.symm]
  | _, _, .bin n s hs, fuel, rest, h => by
    rw [List.length_append] at h
    obtain ⟨f, rfl⟩ : ∃ f, fuel = f + 1 := ⟨fuel - 1, by have := (length_spec_pos n).2.2.2.1; omega⟩
    rw [List.append_assoc, decode_binHeader, raw_append hs.symm]
  | _, _, .arr n hn hb, fuel, rest, h => by
    rw [List.length_append] at h
    have hpos := (length_spec_pos n).1
    obtain ⟨f, rfl⟩ : ∃ f, fuel = f + 1 := ⟨fuel - 1, by omega⟩
    rw [List.append_assoc, decode_arrayHeader, arrayOf, hn, many_packs hb f rest (by omega)]
    rfl
  | _, _, .map n hn hb, fuel, rest, h => by
    rw [List.length_append] at h
    have hpos := (length_spec_pos n).2.1
    obtain ⟨f, rfl⟩ : ∃ f, fuel = f + 1 := ⟨fuel - 1, by omega⟩
    rw [List.append_assoc, decode_mapHeader, mapOf, hn, manyPairs_packs hb f rest (by omega)]
    rfl

theorem many_packs : ∀ {xs : List Obj} {b : Bytes}, PacksAll spec xs b → ∀ fuel rest, b.length ≤ fuel →
    many (decode fuel) xs.length (b ++ rest) = some (xs, rest)
  | _, _, .nil, _, _, _ => rfl
  | _, _, .cons hx hxs, fuel, rest, h => by
    rw [List.length_append] at h
    rw [List.length_cons, many, List.append_assoc, decode_packs hx fuel _ (by omega)]
    simp [many_packs hxs fuel rest (by omega)]

theorem manyPairs_packs : ∀ {kvs : List (Obj × Obj)} {b : Bytes}, PacksPairs spec kvs b → ∀ fuel rest,
    b.length ≤ fuel → manyPairs (decode fuel) kvs.length (b ++ rest) = some (kvs, rest)
  | _, _, .nil, _, _, _ => rfl
  | _, _, .cons hk hv hkvs, fuel, rest, h => by
    rw [List.length_append, List.length_append] at h
    rw [List.length_cons, manyPairs, List.append_assoc, List.append_assoc, decode_packs hk fuel _ (by omega)]
    simp [decode_packs hv fuel _ (show _ ≤ fuel by omega), manyPairs_packs hkvs fuel rest (by omega)]

end

theorem spec_lawful : spec.Lawful where
  unpack_packs {o b} h rest := by
    have := decode_packs h ((b ++ rest).length + 1) rest (by simp; omega)
    change (decode ((b ++ rest).length + 1) (b ++ rest)).map Prod.fst = some o
    rw [this]
    rfl

/-! ## Sizes have 32 bits -/

theorem ofBigEndian_lt (b : Bytes) : ofBigEndian b < 256 ^ b.length := by
  induction b using List.reverseRecOn with
  | nil => exact Nat.zero_lt_one
  | append_singleton b x ih =>
    have hx := x.toNat_lt
    unfold ofBigEndian at ih ⊢
    rw [List.foldl_append, List.length_append, List.length_singleton, Nat.pow_succ]
    change 256 * List.foldl _ 0 b + x.toNat < _
    omega

theorem splitBytes_some {n : Nat} {b x rest : Bytes} (h : splitBytes n b = some (x, rest)) : x.length = n := by
  unfold splitBytes at h
  split_ifs at h with hn
  cases h
  rw [List.length_take, Nat.min_eq_left hn]

section Short

variable {dec : Bytes → Option (Obj × Bytes)} {o : Obj} {b rest : Bytes} {n w : Nat}

/-- What `dec` reads holds nothing long. -/
def ReadsShort (dec : Bytes → Option (Obj × Bytes)) : Prop := ∀ b o rest, dec b = some (o, rest) → o.Short

theorem short_arr {xs : List Obj} (h : ∀ x ∈ xs, x.Short) : (Obj.arr xs).Short := by
  intro s hs
  cases hs with
  | elem hx hs => exact h _ hx s hs

theorem short_map {kvs : List (Obj × Obj)} (h : ∀ kv ∈ kvs, kv.1.Short ∧ kv.2.Short) : (Obj.map kvs).Short := by
  intro s hs
  cases hs with
  | key hkv hs => exact (h _ hkv).1 s hs
  | value hkv hs => exact (h _ hkv).2 s hs

theorem many_short (hd : ReadsShort dec) {xs : List Obj} (h : many dec n b = some (xs, rest)) : ∀ x ∈ xs, x.Short := by
  induction n generalizing b xs with
  | zero =>
    cases h
    intro x hx
    cases hx
  | succ n ih =>
    obtain ⟨⟨x, b₁⟩, hx, h⟩ := Option.bind_eq_some_iff.mp h
    obtain ⟨⟨xs, b₂⟩, hxs, h⟩ := Option.bind_eq_some_iff.mp h
    cases h
    exact List.forall_mem_cons.mpr ⟨hd _ _ _ hx, ih hxs⟩

theorem manyPairs_short (hd : ReadsShort dec) {kvs : List (Obj × Obj)} (h : manyPairs dec n b = some (kvs, rest)) :
    ∀ kv ∈ kvs, kv.1.Short ∧ kv.2.Short := by
  induction n generalizing b kvs with
  | zero =>
    cases h
    intro kv hkv
    cases hkv
  | succ n ih =>
    obtain ⟨⟨k, b₁⟩, hk, h⟩ := Option.bind_eq_some_iff.mp h
    obtain ⟨⟨v, b₂⟩, hv, h⟩ := Option.bind_eq_some_iff.mp h
    obtain ⟨⟨kvs, b₃⟩, hkvs, h⟩ := Option.bind_eq_some_iff.mp h
    cases h
    exact List.forall_mem_cons.mpr ⟨⟨hd _ _ _ hk, hd _ _ _ hv⟩, ih hkvs⟩

theorem arrayOf_short (hd : ReadsShort dec) (n : Nat) : ReadsShort (arrayOf dec n) := by
  intro b o rest h
  obtain ⟨⟨xs, b'⟩, hxs, h⟩ := Option.map_eq_some_iff.mp h
  cases h
  exact short_arr (many_short hd hxs)

theorem mapOf_short (hd : ReadsShort dec) (n : Nat) : ReadsShort (mapOf dec n) := by
  intro b o rest h
  obtain ⟨⟨kvs, b'⟩, hkvs, h⟩ := Option.map_eq_some_iff.mp h
  cases h
  exact short_map (manyPairs_short hd hkvs)

/-- What `raw` reads is made from `n` bytes. -/
theorem raw_short {f : Bytes → Obj} (hf : ∀ s : Bytes, s.length = n → (f s).Short) : ReadsShort (raw f n) := by
  intro b o rest h
  obtain ⟨⟨s, b'⟩, hs, h⟩ := Option.map_eq_some_iff.mp h
  cases h
  exact hf s (splitBytes_some hs)

theorem rawExt_short (n : Nat) : ReadsShort (rawExt n) := by
  intro b o rest h
  obtain ⟨⟨t, b₁⟩, -, h⟩ := Option.bind_eq_some_iff.mp h
  obtain ⟨⟨s, b₂⟩, -, h⟩ := Option.bind_eq_some_iff.mp h
  cases h
  intro s hs
  cases hs

theorem sized_short {body : Nat → Bytes → Option (Obj × Bytes)} (hbody : ∀ n < 256 ^ w, ReadsShort (body n)) :
    ReadsShort (sized w body) := by
  intro b o rest h
  obtain ⟨⟨len, b'⟩, hlen, h⟩ := Option.bind_eq_some_iff.mp h
  have hlt := ofBigEndian_lt len
  rw [splitBytes_some hlen] at hlt
  exact hbody _ hlt b' o rest h

theorem short_str {s : Bytes} (h : s.length < 2 ^ 32) : (Obj.str s).Short := by
  intro s' hs
  cases hs
  exact h

theorem short_bin {s : Bytes} (h : s.length < 2 ^ 32) : (Obj.bin s).Short := by
  intro s' hs
  cases hs
  exact h

theorem signed_short (w : Nat) (s : Bytes) : (signed w s).Short := by
  unfold signed
  dsimp only
  split_ifs <;> exact fun _ hs => by cases hs

theorem ite_short {c : Prop} [Decidable c] {x y : Option (Obj × Bytes)} (hx : c → x = some (o, rest) → o.Short)
    (hy : ¬ c → y = some (o, rest) → o.Short) : (if c then x else y) = some (o, rest) → o.Short := by
  by_cases hc : c
  · rw [if_pos hc]
    exact hx hc
  · rw [if_neg hc]
    exact hy hc

theorem atom_short (ho : ∀ s, ¬ o.Holds s) : ReadsShort fun b => some (o, b) := by
  intro b o' rest h
  cases h
  exact fun s hs => absurd hs (ho s)

/-- A length of one, two or four bytes, and so many bytes. -/
theorem sized_raw_short {f : Bytes → Obj} (hf : ∀ s : Bytes, s.length < 2 ^ 32 → (f s).Short) {k : Nat} (hk : k ≤ 2) :
    ReadsShort (sized (2 ^ k) (raw f)) := by
  have hw : 2 ^ k ≤ 2 ^ 2 := Nat.pow_le_pow_right (by omega) hk
  have hlt : 256 ^ 2 ^ k ≤ 256 ^ 2 ^ 2 := Nat.pow_le_pow_right (by omega) hw
  refine sized_short fun n hn => raw_short fun s hs => hf s ?_
  omega

/-- One case for each kind of leading byte. -/
theorem decodeTail_short (hd : ReadsShort dec) (t : Nat) : ReadsShort (decodeTail dec t) := by
  intro b o rest
  refine ite_short (fun _ => ?_) fun h80 => ite_short (fun _ => ?_) fun _ => ite_short (fun _ => ?_) fun ha0 =>
    ite_short (fun hc0 => ?_) fun _ => ite_short (fun _ => ?_) fun _ => ite_short (fun _ => ?_) fun _ =>
    ite_short (fun _ => ?_) fun _ => ite_short (fun _ => ?_) fun _ => ite_short (fun hc7 => ?_) fun _ =>
    ite_short (fun _ => ?_) fun _ => ite_short (fun _ => ?_) fun _ => ite_short (fun _ => ?_) fun _ =>
    ite_short (fun _ => ?_) fun _ => ite_short (fun _ => ?_) fun _ => ite_short (fun hdc => ?_) fun _ =>
    ite_short (fun _ => ?_) fun _ => ite_short (fun _ => ?_) fun _ => ?_
  · exact atom_short (fun _ hs => by cases hs) b o rest
  · exact mapOf_short hd _ b o rest
  · exact arrayOf_short hd _ b o rest
  · exact raw_short (fun s hs => short_str (by omega)) b o rest
  · exact atom_short (fun _ hs => by cases hs) b o rest
  · exact fun h => by cases h
  · exact atom_short (fun _ hs => by cases hs) b o rest
  · exact atom_short (fun _ hs => by cases hs) b o rest
  · exact sized_raw_short (fun _ => short_bin) (by omega) b o rest
  · exact sized_short (fun n _ => rawExt_short n) b o rest
  · exact raw_short (fun s _ _ hs => by cases hs) b o rest
  · exact raw_short (fun s _ _ hs => by cases hs) b o rest
  · exact raw_short (fun s _ => signed_short _ s) b o rest
  · exact rawExt_short _ b o rest
  · exact sized_raw_short (fun _ => short_str) (by omega) b o rest
  · exact sized_short (fun n _ => arrayOf_short hd n) b o rest
  · exact sized_short (fun n _ => mapOf_short hd n) b o rest
  · exact atom_short (fun _ hs => by cases hs) b o rest

theorem decode_short (fuel : Nat) : ReadsShort (decode fuel) := by
  induction fuel with
  | zero =>
    intro b o rest h
    cases h
  | succ fuel ih =>
    intro b o rest h
    cases b with
    | nil => cases h
    | cons t b => exact decodeTail_short ih t.toNat b o rest h

end Short

theorem spec_short : spec.Short := by
  intro b o h
  obtain ⟨⟨o', rest⟩, hdec, rfl⟩ := Option.map_eq_some_iff.mp h
  exact decode_short _ b o' rest hdec

/-! ## An object cut short -/

section Whole

variable {α : Type} {dec dec' : Bytes → Option (Obj × Bytes)} {n w : Nat}

/-- What `read` reads at the start of some bytes, `read'` reads when more bytes follow. -/
def Goes (read read' : Bytes → Option (α × Bytes)) : Prop :=
  ∀ b a rest, read b = some (a, rest) → ∀ more, read' (b ++ more) = some (a, rest ++ more)

theorem splitBytes_goes (n : Nat) : Goes (splitBytes n) (splitBytes n) := by
  intro b x rest h more
  unfold splitBytes at h ⊢
  split_ifs at h with hn
  cases h
  rw [List.length_append, if_pos (by omega), List.take_append_of_le_length hn, List.drop_append_of_le_length hn]

theorem Goes.bind {β : Type} {read read' : Bytes → Option (α × Bytes)} {next next' : α → Bytes → Option (β × Bytes)}
    (h : Goes read read') (hn : ∀ a, Goes (next a) (next' a)) :
    Goes (fun b => (read b).bind fun p => next p.1 p.2) fun b => (read' b).bind fun p => next' p.1 p.2 := by
  intro b c rest hb more
  obtain ⟨⟨a, b'⟩, ha, hc⟩ := Option.bind_eq_some_iff.mp hb
  dsimp only
  rw [h b a b' ha more]
  exact hn a b' c rest hc more

theorem Goes.map {β : Type} {read read' : Bytes → Option (α × Bytes)} (h : Goes read read') (f : α → β) :
    Goes (fun b => (read b).map fun p => (f p.1, p.2)) fun b => (read' b).map fun p => (f p.1, p.2) := by
  intro b c rest hb more
  obtain ⟨⟨a, b'⟩, ha, hc⟩ := Option.map_eq_some_iff.mp hb
  cases hc
  dsimp only
  rw [h b a b' ha more]
  rfl

theorem goes_some (a : α) : Goes (fun b => some (a, b)) fun b => some (a, b) := by
  intro b c rest h more
  cases h
  rfl

theorem many_goes (h : Goes dec dec') (n : Nat) : Goes (many dec n) (many dec' n) := by
  induction n with
  | zero => exact goes_some []
  | succ n ih => exact h.bind fun x => ih.bind fun xs => goes_some (x :: xs)

theorem manyPairs_goes (h : Goes dec dec') (n : Nat) : Goes (manyPairs dec n) (manyPairs dec' n) := by
  induction n with
  | zero => exact goes_some []
  | succ n ih => exact h.bind fun k => h.bind fun v => ih.bind fun kvs => goes_some ((k, v) :: kvs)

theorem raw_goes (f : Bytes → Obj) (n : Nat) : Goes (raw f n) (raw f n) := (splitBytes_goes n).map f

theorem rawExt_goes (n : Nat) : Goes (rawExt n) (rawExt n) :=
  (splitBytes_goes 1).bind fun t => (splitBytes_goes n).bind fun s => goes_some (Obj.ext (t.headD 0) s)

theorem sized_goes {body body' : Nat → Bytes → Option (Obj × Bytes)} (h : ∀ n, Goes (body n) (body' n)) (w : Nat) :
    Goes (sized w body) (sized w body') := (splitBytes_goes w).bind fun len => h (ofBigEndian len)

theorem arrayOf_goes (h : Goes dec dec') (n : Nat) : Goes (arrayOf dec n) (arrayOf dec' n) := (many_goes h n).map Obj.arr

theorem mapOf_goes (h : Goes dec dec') (n : Nat) : Goes (mapOf dec n) (mapOf dec' n) := (manyPairs_goes h n).map Obj.map

theorem ite_goes {c : Prop} [Decidable c] {x x' y y' : Bytes → Option (Obj × Bytes)} (hx : Goes x x') (hy : Goes y y') :
    Goes (fun b => if c then x b else y b) fun b => if c then x' b else y' b := by
  by_cases hc : c
  · simpa only [if_pos hc] using hx
  · simpa only [if_neg hc] using hy

theorem decodeTail_goes (h : Goes dec dec') (t : Nat) : Goes (decodeTail dec t) (decodeTail dec' t) :=
  ite_goes (goes_some _) <| ite_goes (mapOf_goes h _) <| ite_goes (arrayOf_goes h _) <| ite_goes (raw_goes _ _) <|
  ite_goes (goes_some _) <| ite_goes (fun _ _ _ h => by cases h) <| ite_goes (goes_some _) <| ite_goes (goes_some _) <|
  ite_goes (sized_goes (raw_goes _) _) <| ite_goes (sized_goes rawExt_goes _) <| ite_goes (raw_goes _ _) <|
  ite_goes (raw_goes _ _) <| ite_goes (raw_goes _ _) <| ite_goes (rawExt_goes _) <|
  ite_goes (sized_goes (raw_goes _) _) <| ite_goes (sized_goes (arrayOf_goes h) _) <|
  ite_goes (sized_goes (mapOf_goes h) _) (goes_some _)

/-- More fuel and more bytes change nothing in what was read. -/
theorem decode_goes {fuel fuel' : Nat} (h : fuel ≤ fuel') : Goes (decode fuel) (decode fuel') := by
  induction fuel generalizing fuel' with
  | zero =>
    intro b o rest hb
    cases hb
  | succ fuel ih =>
    obtain ⟨fuel', rfl⟩ : ∃ n, fuel' = n + 1 := ⟨fuel' - 1, by omega⟩
    intro b o rest hb more
    cases b with
    | nil => cases hb
    | cons t b => exact decodeTail_goes (ih (by omega)) t.toNat b o rest hb more

end Whole

theorem spec_whole : spec.Whole := by
  intro o b hp k hk
  change (decode ((b.take k).length + 1) (b.take k)).map Prod.fst = none
  cases hd : decode ((b.take k).length + 1) (b.take k) with
  | none => rfl
  | some r =>
    -- the bytes that were cut off would be left over, but nothing is
    have hfuel : (b.take k).length + 1 ≤ b.length + 1 := by
      rw [List.length_take]
      omega
    have hmore := decode_goes hfuel _ _ _ hd (b.drop k)
    have hall := decode_packs hp (b.length + 1) [] (by omega)
    rw [List.take_append_drop] at hmore
    rw [List.append_nil, hmore, Option.some.injEq, Prod.mk.injEq] at hall
    have hnil : b.drop k = [] := (List.append_eq_nil_iff.mp hall.2).2
    have hlen : b.length ≤ k := List.drop_eq_nil_iff.mp hnil
    omega

end Msgpack
