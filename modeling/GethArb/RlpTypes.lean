/-
  **Typed encoding and decoding** (`rlp/encode.go`, `rlp/encbuffer.go`, `rlp/decode.go`,
  `rlp/typecache.go`): the writer and the decoder the package generates for a type.

  The source builds both by reflection.  Here a `TypeInfo` is the pair of functions, with
  one definition for each shape of type: integers, byte slices and arrays, slices,
  pointers with the tag `nil`, and structs.  A struct is a row of `Fields`, and the last
  one may carry the tag `optional`.  The type and field names the source adds to its errors
  are left out.

  Two laws are proved for every shape and carried through slices and structs.
  `RoundTrip`: what the writer produced is read back from any stream, up to `norm`, which
  turns the integers that were nil into zeros.  `Accepts`: whatever the decoder took off a
  stream is one of the encodings `enc` allows for the value; for all shapes but a struct
  with an optional field it is the one the writer produces (`Canonical`).
-/
import GethArb.RlpStream

namespace GethArb.Rlp

open List Rlp.Stream

/-! ### Integers -/

def writeUint64 (i : Nat) : Bytes :=
  if i = 0 then [0x80]
  else if i < 128 then [UInt8.ofNat i]
  else UInt8.ofNat (0x80 + intsize i) :: putint i

/-- `BitLen` of an integer. -/
def bitLen (i : Nat) : Nat := if i = 0 then 0 else Nat.log2 i + 1

def writeBigInt (i : Nat) : Bytes :=
  if bitLen i ≤ 64 then writeUint64 i
  else
    let length := (bitLen i + 7) / 8
    header .string length ++ bytesBE length i

def writeUint256 (z : U256) : Bytes :=
  if bitLen z.toNat ≤ 64 then writeUint64 z.toNat
  else
    let nBytes := (bitLen z.toNat + 7) / 8
    UInt8.ofNat (0x80 + nBytes) :: bytesBE nBytes z.toNat

/-- The bytes of an integer without leading zeros. -/
def intBytes (i : Nat) : Bytes := if i = 0 then [] else putint i

theorem head_intBytes (i : Nat) : (intBytes i).head? ≠ some 0 := by
  unfold intBytes
  split
  · simp
  · rename_i hi
    obtain ⟨x, xs, hputint, hx⟩ := head_putint hi
    rw [hputint]
    simpa using hx

@[simp] theorem ofBytesBE_intBytes (i : Nat) : ofBytesBE (intBytes i) = i := by
  unfold intBytes
  split
  · subst_vars
    rfl
  · exact ofBytesBE_putint i

variable {b : Bytes}

theorem intBytes_ofBytesBE (hb : b.head? ≠ some 0) : intBytes (ofBytesBE b) = b := by
  cases b with
  | nil => rfl
  | cons x xs =>
    have hx : x ≠ 0 := by
      rintro rfl
      exact hb rfl
    have hpos : 0 < 256 ^ xs.length := by positivity
    have hlow := pow_le_ofBytesBE hx xs
    rw [intBytes, if_neg (by omega), putint_ofBytesBE hx]

variable {i n : Nat}

theorem length_intBytes_le (h : i < 256 ^ n) : (intBytes i).length ≤ n := by
  unfold intBytes
  split
  · simp
  rename_i hi
  rw [length_putint]
  have hlt : intsize i - 1 < n :=
    (Nat.pow_lt_pow_iff_right (by norm_num)).mp ((pow_intsize_le hi).trans_lt h)
  omega

theorem intsize_eq_bitLen (h : i ≠ 0) : intsize i = (bitLen i + 7) / 8 := by
  rw [intsize, bitLen, if_neg h, if_neg h]
  omega

theorem lt_of_bitLen_le (h : bitLen i ≤ n) : i < 2 ^ n := by
  by_cases hi : i = 0
  · subst hi
    positivity
  · rw [bitLen, if_neg hi] at h
    exact Nat.lt_log2_self.trans_le (Nat.pow_le_pow_right (by norm_num) h)

theorem bitLen_le_of_lt (h : i < 2 ^ n) : bitLen i ≤ n := by
  by_cases hi : i = 0
  · subst hi
    simp [bitLen]
  · rw [bitLen, if_neg hi]
    exact (Nat.log2_lt hi).mpr h

theorem writeUint64_eq (h : i < 2 ^ 64) : writeUint64 i = encodeBytes (intBytes i) := by
  have hsize := intsize_le_eight h
  unfold writeUint64
  by_cases hzero : i = 0
  · subst hzero
    rfl
  rw [if_neg hzero, intBytes, if_neg hzero]
  by_cases hsmall : i < 128
  · have hone : intsize i = 1 := by
      have hpow := pow_intsize_le hzero
      have hlt : 256 ^ (intsize i - 1) < 256 ^ 1 := by omega
      have := (Nat.pow_lt_pow_iff_right (by norm_num)).mp hlt
      have := intsize_pos i
      omega
    have hputint : putint i = [UInt8.ofNat i] := by simp [putint, hone, bytesBE]
    have hx : UInt8.ofNat i < 0x80 := by
      rw [UInt8.lt_iff_toNat_lt, toNat_ofNat_of_lt (by omega)]
      exact hsmall
    rw [if_pos hsmall, hputint, encodeBytes_small hx]
  · have hplain : Plain (putint i) := by
      have := (not_small_iff (b := putint i) (by
        have := head_intBytes i
        rwa [intBytes, if_neg hzero] at this)).mp
      rw [ofBytesBE_putint] at this
      exact this (by omega)
    rw [if_neg hsmall, encodeBytes_plain hplain, length_putint, header_string_short (by omega),
      singleton_append]

/-- Larger integers have a header and no other form. -/
theorem encodeBytes_intBytes_large (h : ¬ bitLen i ≤ 64) :
    encodeBytes (intBytes i) =
      header .string ((bitLen i + 7) / 8) ++ bytesBE ((bitLen i + 7) / 8) i := by
  have hzero : i ≠ 0 := by
    rintro rfl
    exact h (by simp [bitLen])
  have hsize := intsize_eq_bitLen hzero
  have hplain : Plain (putint i) := by
    rintro x hx
    have hlen := congrArg length hx
    rw [length_putint, length_singleton] at hlen
    omega
  rw [intBytes, if_neg hzero, encodeBytes_plain hplain, length_putint, putint, hsize]

theorem writeBigInt_eq (i : Nat) : writeBigInt i = encodeBytes (intBytes i) := by
  unfold writeBigInt
  split
  · rename_i h
    exact writeUint64_eq (lt_of_bitLen_le h)
  · rename_i h
    exact (encodeBytes_intBytes_large h).symm

theorem writeUint256_eq (z : U256) : writeUint256 z = encodeBytes (intBytes z.toNat) := by
  have hlen : bitLen z.toNat ≤ 256 := bitLen_le_of_lt z.isLt
  unfold writeUint256
  split
  · rename_i h
    exact writeUint64_eq (lt_of_bitLen_le h)
  · rename_i h
    rw [encodeBytes_intBytes_large h, header_string_short (by omega)]
    rfl

/-! ### The functions of a type -/

/-- `typeinfo`: what the package generates for a type. -/
structure TypeInfo (α : Type) where
  writer : α → Except Error Bytes
  decoder : Stream → Except Error (α × Stream)

/-- A row of struct fields. -/
structure Fields (α : Type) where
  writer : α → Except Error Bytes
  decoder : Stream → Except Error (α × Stream)

variable {α β : Type}

namespace TypeInfo

/-- `writeUint` and `decodeUint`, for the unsigned type of `w` bits. -/
def uint (w : Nat) : TypeInfo (BitVec w) where
  writer i := .ok (writeUint64 i.toNat)
  decoder s := do
    let (v, s) ← s.uint w
    .ok (BitVec.ofNat w v, s)

/-- A byte slice. -/
def bytes : TypeInfo Bytes where
  writer b := .ok (encodeBytes b)
  decoder s := s.bytes

/-- An array of `n` bytes, at least two, as a number. -/
def byteArray (n : Nat) : TypeInfo (BitVec (8 * n)) where
  writer x := .ok (header .string n ++ bytesBE n x.toNat)
  decoder s := do
    let (b, s) ← s.byteArray n
    .ok (BitVec.ofNat (8 * n) (ofBytesBE b), s)

/-- `*big.Int`. -/
def bigIntPtr : TypeInfo (Option Int) where
  writer
    | none => .ok [0x80]
    | some i => if i < 0 then .error .negativeBigInt else .ok (writeBigInt i.toNat)
  decoder s := do
    let (i, s) ← s.decodeBigInt
    .ok (some (i : Int), s)

/-- `*uint256.Int`. -/
def u256Ptr : TypeInfo (Option U256) where
  writer
    | none => .ok [0x80]
    | some z => .ok (writeUint256 z)
  decoder s := do
    let (z, s) ← s.readUint256
    .ok (some z, s)

/-- `uint256.Int`. -/
def u256 : TypeInfo U256 where
  writer z := .ok (writeUint256 z)
  decoder s := s.readUint256

/-- `makeNilPtrDecoder` and `makePtrWriter` for a field with the tag `nil`. -/
def nilPtr (t : TypeInfo α) (nilKind : Kind) : TypeInfo (Option α) where
  writer
    | none => .ok (header nilKind 0)
    | some a => t.writer a
  decoder s := do
    let (h, s') ← s.kind
    if h.kind ≠ .byte ∧ h.size = 0 then
      if h.kind ≠ nilKind then .error (.wrongEmptyKind h.kind nilKind) else .ok (none, s')
    else
      let (a, s) ← t.decoder s
      .ok (some a, s)

/-- The elements of a list, up to its end (`decodeSliceElems`).  An element has at least one
    byte, so the number of passes is bounded by the input. -/
def decodeElems (dec : Stream → Except Error (α × Stream)) :
    Nat → Stream → Except Error (List α × Stream)
  | 0, _ => .error .unexpectedEOF
  | fuel + 1, s =>
    match dec s with
    | .error .eol => .ok ([], s)
    | .error err => .error err
    | .ok (a, s) => do
      let (as, s) ← decodeElems dec fuel s
      .ok (a :: as, s)

/-- The elements of a slice one after another. -/
def writeElems (t : TypeInfo α) : List α → Except Error Bytes
  | [] => .ok []
  | a :: as => do
    let b ← t.writer a
    let bs ← writeElems t as
    .ok (b ++ bs)

/-- A slice that is not a byte slice (`makeSliceWriter`, `decodeListSlice`). -/
def slice (t : TypeInfo α) : TypeInfo (List α) where
  writer l := do
    let content ← t.writeElems l
    .ok (encodeList content)
  decoder s := do
    let (size, s) ← s.list
    if size = 0 then
      let s ← s.listEnd
      .ok ([], s)
    else
      let (l, s) ← decodeElems t.decoder (s.input.length + 1) s
      let s ← s.listEnd
      .ok (l, s)

/-- A struct (`makeStructWriter`, `makeStructDecoder`). -/
def struct (fs : Fields α) : TypeInfo α where
  writer a := do
    let content ← fs.writer a
    .ok (encodeList content)
  decoder s := do
    let (_, s) ← s.list
    let (a, s) ← fs.decoder s
    let s ← s.listEnd
    .ok (a, s)

/-- The same encoding, for a type with the same data. -/
def view (t : TypeInfo α) (get : β → α) (make : α → β) : TypeInfo β where
  writer b := t.writer (get b)
  decoder s := do
    let (a, s) ← t.decoder s
    .ok (make a, s)

end TypeInfo

namespace Fields

/-- A last field that has to be there. -/
def last (t : TypeInfo α) : Fields α where
  writer := t.writer
  decoder s :=
    match t.decoder s with
    | .error .eol => .error .tooFewElements
    | .error err => .error err
    | .ok (a, s) => .ok (a, s)

def cons (t : TypeInfo α) (fs : Fields β) : Fields (α × β) where
  writer p := do
    let b ← t.writer p.1
    let bs ← fs.writer p.2
    .ok (b ++ bs)
  decoder s :=
    match t.decoder s with
    | .error .eol => .error .tooFewElements
    | .error err => .error err
    | .ok (a, s) => do
      let (b, s) ← fs.decoder s
      .ok ((a, b), s)

/-- A last field with the tag `optional`, of a type whose decoder meets the end of the list only
    before it has read anything: not written when it is the zero value of its type, and set to
    it when the list has ended. -/
def optional [DecidableEq α] (t : TypeInfo α) (zero : α) : Fields α where
  writer a := if a = zero then .ok [] else t.writer a
  decoder s :=
    match t.decoder s with
    | .error .eol => .ok (zero, s)
    | .error err => .error err
    | .ok (a, s) => .ok (a, s)

/-- No more fields. -/
def nil : Fields Unit where
  writer _ := .ok []
  decoder s := .ok ((), s)

/-- A pointer field with the tag `optional`, and the optional fields behind it.  They are
    nil and `rest` when a list has ended, and not written when all of them are.  The decoder of
    the type may have opened a list of its own by then: it leaves the stream as `stop` has it,
    and the list that the struct closes next is that one. -/
def optionalPtr [DecidableEq α] [DecidableEq β] (t : TypeInfo α) (stop : Stream → Stream)
    (nilKind : Kind) (fs : Fields β) (rest : β) : Fields (Option α × β) where
  writer p :=
    if p = (none, rest) then .ok []
    else do
      let b ← match p.1 with
        | none => .ok (header nilKind 0)
        | some a => t.writer a
      let bs ← fs.writer p.2
      .ok (b ++ bs)
  decoder s :=
    match t.decoder s with
    | .error .eol => .ok ((none, rest), stop s)
    | .error err => .error err
    | .ok (a, s) => do
      let (b, s) ← fs.decoder s
      .ok ((some a, b), s)

end Fields

/-- `DecodeBytes`: the input is exactly one value. -/
def decodeBytes (t : TypeInfo α) (b : Bytes) : Except Error α := do
  let (a, s) ← t.decoder ⟨b, decide (b.length > 0), []⟩
  if s.input.length > 0 then .error .moreThanOneValue else .ok a

/-! ### The laws -/

namespace TypeInfo

structure RoundTrip (t : TypeInfo α) (dom : α → Prop) (norm : α → α) : Prop where
  writes : ∀ a, dom a → ∃ b, t.writer a = .ok b
  norm_writer : ∀ a, t.writer (norm a) = t.writer a
  ne_nil : ∀ a b, t.writer a = .ok b → b ≠ []
  eol : ∀ s : Stream, s.stack.head? = some 0 → t.decoder s = .error .eol
  reads : ∀ (a : α) (b : Bytes) (s : Stream), t.writer a = .ok b → b.length < 2 ^ 64 →
    s.Fits b.length → t.decoder (s.push b) = .ok (norm a, s)

/-- Whatever the decoder took off a stream encodes the value it returns. -/
def Accepts (t : TypeInfo α) (enc : α → Bytes → Prop) : Prop :=
  ∀ (s : Stream) (a : α) (s' : Stream), s.input.length < 2 ^ 64 → t.decoder s = .ok (a, s') →
    ∃ b, enc a b ∧ s = s'.push b

/-- The decoder accepts only what the writer produces. -/
def Canonical (t : TypeInfo α) : Prop := t.Accepts fun a b => t.writer a = .ok b

class Lawful (t : TypeInfo α) (dom : outParam (α → Prop)) (norm : outParam (α → α)) : Prop where
  roundTrip : t.RoundTrip dom norm
  canonical : t.Canonical

end TypeInfo

namespace Fields

structure RoundTrip (fs : Fields α) (dom : α → Prop) (norm : α → α) : Prop where
  writes : ∀ a, dom a → ∃ b, fs.writer a = .ok b
  norm_writer : ∀ a, fs.writer (norm a) = fs.writer a
  reads : ∀ (a : α) (b : Bytes) (s : Stream), fs.writer a = .ok b → b.length < 2 ^ 64 →
    fs.decoder (s.inList.push b) = .ok (norm a, s.inList)

def Accepts (fs : Fields α) (enc : α → Bytes → Prop) : Prop :=
  ∀ (s : Stream) (a : α) (s' : Stream), s.input.length < 2 ^ 64 → fs.decoder s = .ok (a, s') →
    ∃ b, enc a b ∧ s = s'.push b

def Canonical (fs : Fields α) : Prop := fs.Accepts fun a b => fs.writer a = .ok b

class Lawful (fs : Fields α) (dom : outParam (α → Prop)) (norm : outParam (α → α)) : Prop where
  roundTrip : fs.RoundTrip dom norm
  canonical : fs.Canonical

end Fields

/-! ### Integers, bytes and arrays -/

namespace Stream

variable {s : Stream}

variable (h : s.stack.head? = some 0)
include h

theorem uint_eol (n : Nat) : s.uint n = .error .eol := by
  simp [uint, kind_eol h]

theorem bytes_eol : s.bytes = .error .eol := by
  simp [bytes, kind_eol h]

theorem byteArray_eol (n : Nat) : s.byteArray n = .error .eol := by
  simp [byteArray, kind_eol h]

theorem readInteger_eol (large : Except Error Unit) : s.readInteger large = .error .eol := by
  simp [readInteger, kind_eol h]

theorem list_eol : s.list = .error .eol := by
  simp [list, kind_eol h]

end Stream

theorem toNat_lt_pow_bytes (x : BitVec (8 * n)) : x.toNat < 256 ^ n := by
  have hlt := x.isLt
  rwa [pow_mul] at hlt

/-- A number of at most `n` bytes fits into `n` bytes. -/
theorem toNat_ofBytesBE (h : b.length ≤ n) :
    (BitVec.ofNat (8 * n) (ofBytesBE b)).toNat = ofBytesBE b := by
  have hpow : 256 ^ b.length ≤ 256 ^ n := Nat.pow_le_pow_right (by norm_num) h
  rw [BitVec.toNat_ofNat, pow_mul]
  exact Nat.mod_eq_of_lt ((ofBytesBE_lt b).trans_le hpow)

namespace TypeInfo

/-- The values that are written as strings. -/
theorem RoundTrip.of_encodeBytes {t : TypeInfo α} {enc : α → Bytes}
    (hwriter : ∀ a, t.writer a = .ok (encodeBytes (enc a)))
    (heol : ∀ s : Stream, s.stack.head? = some 0 → t.decoder s = .error .eol)
    (hreads : ∀ (a : α) (s : Stream), (enc a).length < 2 ^ 64 →
      s.Fits (encodeBytes (enc a)).length →
      t.decoder (s.push (encodeBytes (enc a))) = .ok (a, s)) : t.RoundTrip (fun _ => True) id where
  writes a _ := ⟨_, hwriter a⟩
  norm_writer _ := rfl
  ne_nil a b h := by
    rw [hwriter] at h
    cases h
    exact encodeBytes_ne_nil _
  eol := heol
  reads a b s h hlen hfits := by
    rw [hwriter] at h
    cases h
    exact hreads a s (length_lt_of_encodeBytes hlen) hfits

section
variable {k : Nat} (hpos : 0 < k) (hle : k ≤ 8)

include hle in
theorem writer_uint (i : BitVec (8 * k)) :
    (uint (8 * k)).writer i = .ok (encodeBytes (intBytes i.toNat)) := by
  have hlt := toNat_lt_pow_bytes i
  have hpow : 256 ^ k ≤ 256 ^ 8 := Nat.pow_le_pow_right (by norm_num) hle
  have hwrite := writeUint64_eq (show i.toNat < 2 ^ 64 by omega)
  exact congrArg Except.ok hwrite

include hpos hle in
theorem uint_lawful : (uint (8 * k)).Lawful (fun _ => True) id where
  roundTrip := by
    refine .of_encodeBytes (writer_uint hle) ?_ ?_
    · intro s h
      simp [uint, uint_eol h]
    · intro i s hlen hfits
      have hbytes := length_intBytes_le (toNat_lt_pow_bytes i)
      have hread := uint_push (8 * k) (head_intBytes i.toNat) hlen (by omega) hfits
      simp [uint, hread]
  canonical s a s' _ h := by
    obtain ⟨⟨v, s₁⟩, hread, h⟩ := bind_eq_ok.mp h
    cases h
    obtain ⟨b, hhead, hlen, rfl, hs⟩ := uint_inv (by omega) hread
    have hwriter := writer_uint hle (BitVec.ofNat (8 * k) (ofBytesBE b))
    rw [toNat_ofBytesBE (by omega), intBytes_ofBytesBE hhead] at hwriter
    exact ⟨encodeBytes b, hwriter, hs⟩

end

instance bytes_lawful : bytes.Lawful (fun _ => True) id where
  roundTrip := .of_encodeBytes (fun _ => rfl) (fun _ => bytes_eol) fun _ _ => bytes_push
  canonical _ b _ _ h := ⟨encodeBytes b, rfl, bytes_inv h⟩

section
variable {n : Nat} (hn : 2 ≤ n)

include hn in
theorem writer_byteArray (x : BitVec (8 * n)) :
    (byteArray n).writer x = .ok (encodeBytes (bytesBE n x.toNat)) := by
  have hplain : Plain (bytesBE n x.toNat) := by
    intro y hy
    have hlen := congrArg length hy
    rw [length_bytesBE, length_singleton] at hlen
    omega
  rw [encodeBytes_plain hplain, length_bytesBE]
  rfl

include hn in
theorem byteArray_lawful : (byteArray n).Lawful (fun _ => True) id where
  roundTrip := by
    refine .of_encodeBytes (writer_byteArray hn) ?_ ?_
    · intro s h
      simp [byteArray, byteArray_eol h]
    · intro x s hlen hfits
      have hread := byteArray_push hlen hfits
      rw [length_bytesBE] at hread
      simp [byteArray, hread, ofBytesBE_bytesBE, Nat.mod_eq_of_lt (toNat_lt_pow_bytes x)]
  canonical s x s' _ h := by
    obtain ⟨⟨b, s₁⟩, hread, h⟩ := bind_eq_ok.mp h
    cases h
    obtain ⟨hlen, hs⟩ := byteArray_inv hread
    have hbytes : bytesBE n (ofBytesBE b) = b := hlen ▸ bytesBE_ofBytesBE b
    have hwriter := writer_byteArray hn (BitVec.ofNat (8 * n) (ofBytesBE b))
    rw [toNat_ofBytesBE hlen.le, hbytes] at hwriter
    exact ⟨encodeBytes b, hwriter, hs⟩

end

/-- A nil integer reads as zero. -/
def orZero [Zero α] (a : Option α) : Option α := some (a.getD 0)

/-- A nil integer, or one the encoder takes. -/
def NonNeg (i : Option Int) : Prop := ∀ j ∈ i, 0 ≤ j

theorem writer_bigIntPtr {i : Option Int} (h : bigIntPtr.writer i = .ok b) :
    0 ≤ i.getD 0 ∧ b = encodeBytes (intBytes (i.getD 0).toNat) := by
  cases i with
  | none =>
    cases h
    exact ⟨le_rfl, rfl⟩
  | some j =>
    simp only [bigIntPtr] at h
    split at h
    · cases h
    · rename_i hneg
      cases h
      exact ⟨Int.not_lt.mp hneg, writeBigInt_eq _⟩

theorem writer_bigIntPtr_some {i : Int} (h : 0 ≤ i) :
    bigIntPtr.writer (some i) = .ok (encodeBytes (intBytes i.toNat)) := by
  simp [bigIntPtr, if_neg (Int.not_lt.mpr h), writeBigInt_eq]

instance bigIntPtr_lawful : bigIntPtr.Lawful NonNeg orZero where
  roundTrip := {
    writes i hi := by
      cases i with
      | none => exact ⟨_, rfl⟩
      | some j => exact ⟨_, writer_bigIntPtr_some (hi j rfl)⟩
    norm_writer i := by
      cases i with
      | none | some j => rfl
    ne_nil i b h := by
      rw [(writer_bigIntPtr h).2]
      exact encodeBytes_ne_nil _
    eol s h := by
      simp [bigIntPtr, decodeBigInt, readInteger_eol h]
    reads i b s h hlen hfits := by
      obtain ⟨hnonneg, rfl⟩ := writer_bigIntPtr h
      have hread := readInteger_push (.ok ()) (head_intBytes (i.getD 0).toNat)
        (length_lt_of_encodeBytes hlen) (fun _ => rfl) hfits
      simp only [bigIntPtr, decodeBigInt, hread, ok_bind, ofBytesBE_intBytes,
        Int.toNat_of_nonneg hnonneg]
      rfl
  }
  canonical s i s' _ h := by
    obtain ⟨⟨v, s₁⟩, hdecode, h⟩ := bind_eq_ok.mp h
    cases h
    obtain ⟨⟨b, s₂⟩, hread, h⟩ := bind_eq_ok.mp hdecode
    cases h
    obtain ⟨hhead, -, hs⟩ := readInteger_inv hread
    have hwriter := writer_bigIntPtr_some (i := (ofBytesBE b : Int)) (by omega)
    rw [Int.toNat_natCast, intBytes_ofBytesBE hhead] at hwriter
    exact ⟨encodeBytes b, hwriter, hs⟩

theorem writer_u256 (z : U256) : u256.writer z = .ok (encodeBytes (intBytes z.toNat)) :=
  congrArg Except.ok (writeUint256_eq z)

instance u256_lawful : u256.Lawful (fun _ => True) id where
  roundTrip := by
    refine .of_encodeBytes writer_u256 ?_ ?_
    · intro s h
      simp [u256, readUint256, readInteger_eol h]
    · intro z s hlen hfits
      have hbytes := length_intBytes_le (toNat_lt_pow_bytes (n := 32) z)
      have hread := readInteger_push (.error .uint256Large) (head_intBytes z.toNat) hlen
        (by omega) hfits
      simp [u256, readUint256, hread]
  canonical s z s' _ h := by
    obtain ⟨⟨b, s₁⟩, hread, h⟩ := bind_eq_ok.mp h
    cases h
    obtain ⟨hhead, hlarge, hs⟩ := readInteger_inv hread
    refine ⟨encodeBytes b, ?_, hs⟩
    have hlen : b.length ≤ 32 := by
      by_contra hlt
      cases hlarge (by omega)
    simp only [u256, writeUint256_eq, toNat_ofBytesBE (n := 32) hlen, intBytes_ofBytesBE hhead]

theorem writer_u256Ptr (z : Option U256) : u256Ptr.writer z = u256.writer (z.getD 0) := by
  cases z with
  | none | some z => rfl

instance u256Ptr_lawful : u256Ptr.Lawful (fun _ => True) orZero where
  roundTrip := {
    writes z _ := by
      rw [writer_u256Ptr]
      exact ⟨_, rfl⟩
    norm_writer z := by
      rw [writer_u256Ptr, writer_u256Ptr]
      rfl
    ne_nil z b h := u256_lawful.roundTrip.ne_nil _ b (writer_u256Ptr z ▸ h)
    eol s h := by
      simp [u256Ptr, readUint256, readInteger_eol h]
    reads z b s h hlen hfits := by
      have hread := u256_lawful.roundTrip.reads _ b s (writer_u256Ptr z ▸ h) hlen hfits
      simp only [u256] at hread
      simp only [u256Ptr, hread]
      rfl
  }
  canonical s z s' hinput h := by
    obtain ⟨⟨z₁, s₁⟩, hread, h⟩ := bind_eq_ok.mp h
    cases h
    exact u256_lawful.canonical s z₁ s' hinput hread

/-! ### Pointers -/

section
variable {t : TypeInfo α} {dom : α → Prop} {norm : α → α}

/-- The encodings of `t` are not empty values. -/
def NonEmpty (t : TypeInfo α) : Prop :=
  ∀ (a : α) (b : Bytes) (s : Stream), t.writer a = .ok b → b.length < 2 ^ 64 → s.Fits b.length →
    ∃ h s', (s.push b).kind = .ok (h, s') ∧ ¬ (h.kind ≠ .byte ∧ h.size = 0)

theorem byteArray_nonEmpty (hn : 2 ≤ n) : (byteArray n).NonEmpty := by
  intro x b s h hlen hfits
  rw [writer_byteArray hn] at h
  cases h
  rcases kind_encodeBytes (length_lt_of_encodeBytes hlen) hfits with
    ⟨y, -, -, hkind⟩ | ⟨-, -, hkind⟩
  · exact ⟨_, _, hkind, fun hne => hne.1 rfl⟩
  · refine ⟨_, _, hkind, fun hempty => ?_⟩
    have hzero : (bytesBE n x.toNat).length = 0 := hempty.2
    rw [length_bytesBE] at hzero
    omega

theorem nilPtr_roundTrip (ht : t.RoundTrip dom norm) (hne : t.NonEmpty) {k : Kind}
    (hk : k ≠ .byte) :
    (t.nilPtr k).RoundTrip (fun a => ∀ x ∈ a, dom x) (Option.map norm) where
  writes a ha := by
    cases a with
    | none => exact ⟨_, rfl⟩
    | some a => exact ht.writes a (ha a rfl)
  norm_writer a := by
    cases a with
    | none => rfl
    | some a => exact ht.norm_writer a
  ne_nil a b h := by
    cases a with
    | none =>
      cases h
      exact header_ne_nil k 0
    | some a => exact ht.ne_nil a b h
  eol s h := by simp [nilPtr, kind_eol h]
  reads a b s h hlen hfits := by
    cases a with
    | none =>
      cases h
      have hkind := kind_push_header (s := s) (c := []) hk (by simp) (by simpa using hfits)
      simp only [length_nil, append_nil] at hkind
      simp only [nilPtr, hkind]
      simp [hk]
    | some a =>
      obtain ⟨hd, s₁, hkind, hnonempty⟩ := hne a b s h hlen hfits
      simp only [nilPtr, hkind, ok_bind, if_neg hnonempty, ht.reads a b s h hlen hfits]
      rfl

theorem nilPtr_canonical (ht : t.Canonical) {k : Kind} : (t.nilPtr k).Canonical := by
  intro s a s' hinput h
  obtain ⟨⟨hd, s₁⟩, hkind, h⟩ := bind_eq_ok.mp h
  simp only at h
  split at h
  · rename_i hempty
    split at h
    · cases h
    rename_i hsame
    cases h
    obtain ⟨head, hhead, hs⟩ := kind_inv hkind
    cases hhead with
    | byte hx => exact absurd rfl hempty.1
    | @sized k' n hk hn =>
      have hzero : n = 0 := hempty.2
      have hk' : k' = k := by simpa using hsame
      subst hzero hk'
      exact ⟨_, rfl, hs⟩
  · obtain ⟨⟨x, s₂⟩, hread, h⟩ := bind_eq_ok.mp h
    cases h
    exact ht s x s₂ hinput hread

/-! ### Slices -/

theorem decodeElems_push (ht : t.RoundTrip dom norm) (s : Stream) :
    ∀ (l : List α) (content : Bytes) (fuel : Nat), t.writeElems l = .ok content →
      content.length < fuel → content.length < 2 ^ 64 →
      decodeElems t.decoder fuel (s.inList.push content) = .ok (l.map norm, s.inList)
  | [], content, fuel + 1, h, _, _ => by
    cases h
    rw [decodeElems, ht.eol _ rfl]
    rfl
  | a :: l, content, fuel + 1, h, hfuel, hlen => by
    obtain ⟨b, hb, h⟩ := bind_eq_ok.mp h
    obtain ⟨bs, hbs, h⟩ := bind_eq_ok.mp h
    cases h
    have hpos : 0 < b.length := length_pos_iff.mpr (ht.ne_nil a b hb)
    rw [length_append] at hfuel hlen
    have hfits : (s.inList.push bs).Fits b.length :=
      (fits_inList (by omega) s).push
    have hrest := decodeElems_push ht s l bs fuel hbs (by omega) (by omega)
    rw [push_append, decodeElems, ht.reads a b _ hb (by omega) hfits]
    simp [hrest]

theorem decodeElems_inv (ht : t.Canonical) :
    ∀ (fuel : Nat) (s : Stream) (l : List α) (s' : Stream), s.input.length < 2 ^ 64 →
      decodeElems t.decoder fuel s = .ok (l, s') →
      ∃ content, t.writeElems l = .ok content ∧ s = s'.push content
  | 0, s, l, s', _, h => by cases h
  | fuel + 1, s, l, s', hinput, h => by
    rw [decodeElems] at h
    split at h
    · cases h
      exact ⟨[], rfl, (push_nil s).symm⟩
    · cases h
    · rename_i a s₁ hread
      obtain ⟨⟨as, s₂⟩, hrest, h⟩ := bind_eq_ok.mp h
      cases h
      obtain ⟨b, hb, rfl⟩ := ht s a s₁ hinput hread
      rw [length_push] at hinput
      obtain ⟨bs, hbs, rfl⟩ := decodeElems_inv ht fuel s₁ as s' (by omega) hrest
      refine ⟨b ++ bs, ?_, (push_append b bs s').symm⟩
      simp [writeElems, hb, hbs]

variable (ht : t.RoundTrip dom norm)
include ht

theorem writeElems_nil_of_length {l : List α} {content : Bytes} (h : t.writeElems l = .ok content)
    (hlen : content.length = 0) : l = [] := by
  cases l with
  | nil => rfl
  | cons a l =>
    obtain ⟨b, hb, h⟩ := bind_eq_ok.mp h
    obtain ⟨bs, hbs, h⟩ := bind_eq_ok.mp h
    cases h
    have hpos : 0 < b.length := length_pos_iff.mpr (ht.ne_nil a b hb)
    rw [length_append] at hlen
    omega

theorem writeElems_map (l : List α) : t.writeElems (l.map norm) = t.writeElems l := by
  induction l with
  | nil => rfl
  | cons a l ih => simp [writeElems, ht.norm_writer, ih]

theorem writeElems_ok (l : List α) (h : ∀ a ∈ l, dom a) :
    ∃ content, t.writeElems l = .ok content := by
  induction l with
  | nil => exact ⟨[], rfl⟩
  | cons a l ih =>
    obtain ⟨b, hb⟩ := ht.writes a (h a mem_cons_self)
    obtain ⟨bs, hbs⟩ := ih fun x hx => h x (mem_cons_of_mem a hx)
    refine ⟨b ++ bs, ?_⟩
    simp [writeElems, hb, hbs]

end

end TypeInfo

theorem encodeList_ne_nil (c : Bytes) : encodeList c ≠ [] := by
  have hlist : encodeList c = header .list c.length ++ c := rfl
  rw [hlist]
  simp [header_ne_nil]

theorem length_lt_of_encodeList {c : Bytes} (h : (encodeList c).length < 2 ^ 64) :
    c.length < 2 ^ 64 := by
  rw [encodeList, length_append] at h
  omega

theorem intsize_mono {m : Nat} (h : m ≤ n) : intsize m ≤ intsize n := by
  by_cases hzero : m = 0
  · subst hzero
    exact intsize_pos n
  · have hlt : intsize m - 1 < intsize n :=
      (Nat.pow_lt_pow_iff_right (by norm_num)).mp
        ((pow_intsize_le hzero).trans_lt (h.trans_lt (lt_pow_intsize n)))
    omega

/-- A longer content has a longer encoding. -/
theorem length_encodeList_lt {a : Bytes} (h : a.length < b.length) :
    (encodeList a).length < (encodeList b).length := by
  have hmono := intsize_mono h.le
  simp only [encodeList, puthead, length_append]
  split
  · split
    · simpa using h
    · simp only [length_nil, length_cons]
      omega
  · rw [if_neg (by omega)]
    simp only [length_cons, length_putint]
    omega

/-- Entering a list only shortens the input. -/
theorem Stream.list_length {s s' : Stream} {size : Nat} (h : s.list = .ok (size, s')) :
    s'.input.length ≤ s.input.length := by
  obtain ⟨⟨hd, s₁⟩, hkind, hlist⟩ := bind_eq_ok.mp h
  obtain ⟨head, -, hs⟩ := kind_inv hkind
  rw [hs, length_push]
  simp only at hlist
  split at hlist
  · cases hlist
  · cases hlist
    exact Nat.le_add_left _ _

variable {make : α → β} {get : β → α}

section
variable {t : TypeInfo α} {fs : Fields α} {gs : Fields β} {dom : α → Prop} {norm : α → α}
variable {dom' : β → Prop} {norm' : β → β}

theorem TypeInfo.slice_roundTrip (ht : t.RoundTrip dom norm) :
    t.slice.RoundTrip (fun l => ∀ a ∈ l, dom a) (List.map norm) where
  writes l hl := by
    obtain ⟨content, hcontent⟩ := writeElems_ok ht l hl
    refine ⟨encodeList content, ?_⟩
    simp [slice, hcontent]
  norm_writer l := by simp only [slice, writeElems_map ht]
  ne_nil l b h := by
    obtain ⟨content, -, h⟩ := bind_eq_ok.mp h
    cases h
    exact encodeList_ne_nil content
  eol s h := by simp [slice, list_eol h]
  reads l b s h hlen hfits := by
    obtain ⟨content, hcontent, h⟩ := bind_eq_ok.mp h
    cases h
    have hlen := length_lt_of_encodeList hlen
    have hlist := list_push hlen hfits
    simp only [slice, hlist, bind, Except.bind]
    by_cases hzero : content.length = 0
    · have hl := writeElems_nil_of_length ht hcontent hzero
      have hc : content = [] := length_eq_zero_iff.mp hzero
      subst hl hc
      simp
    · have helems := decodeElems_push ht s l content ((s.inList.push content).input.length + 1)
        hcontent (by rw [length_push]; omega) hlen
      simp only [if_neg hzero, helems, listEnd_inList]

theorem TypeInfo.slice_canonical (ht : t.Canonical) : t.slice.Canonical := by
  intro s l s' hinput h
  obtain ⟨⟨size, s₁⟩, hlist, h⟩ := bind_eq_ok.mp h
  have hlength := list_length hlist
  have hcontent : ∃ content, t.writeElems l = .ok content ∧ s₁ = s'.inList.push content := by
    simp only at h
    split at h
    · obtain ⟨s₂, hend, h⟩ := bind_eq_ok.mp h
      cases h
      exact ⟨[], rfl, by rw [push_nil, listEnd_inv hend]⟩
    · obtain ⟨⟨l₁, s₂⟩, helems, h⟩ := bind_eq_ok.mp h
      obtain ⟨s₃, hend, h⟩ := bind_eq_ok.mp h
      cases h
      obtain ⟨content, hcontent, hs⟩ := decodeElems_inv ht _ s₁ l₁ s₂ (by omega) helems
      have hs₂ : s₂ = s'.inList := listEnd_inv hend
      exact ⟨content, hcontent, hs₂ ▸ hs⟩
  obtain ⟨content, hcontent, rfl⟩ := hcontent
  refine ⟨encodeList content, ?_, list_inv hinput hlist⟩
  simp [slice, hcontent]

/-! ### Structs -/

theorem Fields.last_roundTrip (ht : t.RoundTrip dom norm) : (last t).RoundTrip dom norm where
  writes a ha := ht.writes a ha
  norm_writer a := ht.norm_writer a
  reads a b s h hlen := by
    simp only [last, ht.reads a b _ h hlen (fits_inList hlen s)]

theorem Fields.last_canonical (ht : t.Canonical) : (last t).Canonical := by
  intro s a s' hinput h
  simp only [last] at h
  split at h
  · cases h
  · cases h
  · rename_i a₁ s₁ hread
    cases h
    exact ht s a s' hinput hread

/-- What stands behind something short is short. -/
theorem length_right_lt {bs : Bytes} (h : (b ++ bs).length < n) : bs.length < n := by
  rw [length_append] at h
  omega

variable {s : Stream} {a zero : α}

/-- A field in front of other fields. -/
theorem Fields.cons_push (ht : t.RoundTrip dom norm) {bs : Bytes} {q : Except Error (β × Stream)}
    (hb : t.writer a = .ok b) (hlen : (b ++ bs).length < 2 ^ 64)
    (hrest : gs.decoder (s.inList.push bs) = q) :
    (cons t gs).decoder (s.inList.push (b ++ bs)) = q.map fun r => ((norm a, r.1), r.2) := by
  rw [length_append] at hlen
  have hfits : (s.inList.push bs).Fits b.length := (fits_inList (by omega) s).push
  simp only [cons, push_append, ht.reads a b _ hb (by omega) hfits, hrest]
  rfl

variable {err : Error}

/-- A field that cannot be read. -/
theorem Fields.cons_error_head (hne : err ≠ .eol) (h : t.decoder s = .error err) :
    (cons t gs).decoder s = .error err := by
  simp only [cons, h]

theorem Fields.cons_roundTrip (ht : t.RoundTrip dom norm) (hg : gs.RoundTrip dom' norm') :
    (cons t gs).RoundTrip (fun p => dom p.1 ∧ dom' p.2) (Prod.map norm norm') where
  writes p hp := by
    obtain ⟨b, hb⟩ := ht.writes p.1 hp.1
    obtain ⟨bs, hbs⟩ := hg.writes p.2 hp.2
    refine ⟨b ++ bs, ?_⟩
    simp [cons, hb, hbs]
  norm_writer p := by simp [cons, ht.norm_writer, hg.norm_writer]
  reads p c s h hlen := by
    obtain ⟨b, hb, h⟩ := bind_eq_ok.mp h
    obtain ⟨bs, hbs, h⟩ := bind_eq_ok.mp h
    cases h
    exact cons_push ht hb hlen (hg.reads p.2 bs s hbs (length_right_lt hlen))

theorem Fields.cons_accepts {enc : α → Bytes → Prop} {enc' : β → Bytes → Prop}
    (ht : t.Accepts enc) (hg : gs.Accepts enc') :
    (cons t gs).Accepts fun p c => ∃ b bs, c = b ++ bs ∧ enc p.1 b ∧ enc' p.2 bs := by
  intro s p s' hinput h
  simp only [cons] at h
  split at h
  · cases h
  · cases h
  · rename_i a s₁ hread
    obtain ⟨⟨a', s₂⟩, hrest, h⟩ := bind_eq_ok.mp h
    cases h
    obtain ⟨b, hb, rfl⟩ := ht s a s₁ hinput hread
    rw [length_push] at hinput
    obtain ⟨bs, hbs, rfl⟩ := hg s₁ a' s₂ (by omega) hrest
    exact ⟨b ++ bs, ⟨b, bs, rfl, hb, hbs⟩, (push_append b bs s₂).symm⟩

theorem Fields.cons_canonical (ht : t.Canonical) (hg : gs.Canonical) : (cons t gs).Canonical := by
  intro s p s' hinput h
  obtain ⟨c, ⟨b, bs, rfl, hb, hbs⟩, hs⟩ := cons_accepts ht hg s p s' hinput h
  refine ⟨b ++ bs, ?_, hs⟩
  simp [cons, hb, hbs]

/-- A row that accepts what another one accepts, with a field in front of both. -/
theorem Fields.cons_decoder_of {gs' : Fields β}
    (h : ∀ (s : Stream) (r : β × Stream), gs.decoder s = .ok r → gs'.decoder s = .ok r)
    {r : (α × β) × Stream} (hr : (cons t gs).decoder s = .ok r) :
    (cons t gs').decoder s = .ok r := by
  simp only [cons] at hr ⊢
  split at hr
  · cases hr
  · cases hr
  · rename_i a s₁ hread
    obtain ⟨r₁, hrest, hr⟩ := bind_eq_ok.mp hr
    simp only [h s₁ r₁ hrest]
    exact hr

theorem Fields.optional_decoder_of_last [DecidableEq α] {r : α × Stream}
    (hr : (last t).decoder s = .ok r) : (optional t zero).decoder s = .ok r := by
  simp only [last] at hr
  split at hr
  · cases hr
  · cases hr
  · rename_i a s₁ hread
    simp only [optional, hread]
    exact hr

theorem Fields.optional_roundTrip [DecidableEq α] (ht : t.RoundTrip dom norm)
    (hzero : ∀ a, norm a = zero ↔ a = zero) : (optional t zero).RoundTrip dom norm where
  writes a ha := by
    by_cases h : a = zero
    · exact ⟨[], if_pos h⟩
    · obtain ⟨b, hb⟩ := ht.writes a ha
      exact ⟨b, (if_neg h).trans hb⟩
  norm_writer a := by simp [optional, hzero, ht.norm_writer]
  reads a b s h hlen := by
    simp only [optional] at h ⊢
    split at h
    · rename_i ha
      cases h
      rw [push_nil, ht.eol _ rfl, (hzero a).mpr ha]
    · rw [ht.reads a b _ h hlen (fits_inList hlen s)]

section
variable [DecidableEq α] [DecidableEq β] {stop : Stream → Stream} {k : Kind} {rest : β}

theorem Fields.optionalPtr_eol (ht : t.RoundTrip dom norm) (s : Stream) :
    (optionalPtr t stop k gs rest).decoder s.inList = .ok ((none, rest), stop s.inList) := by
  simp only [optionalPtr, ht.eol s.inList rfl]

theorem Fields.optionalPtr_reads (ht : t.RoundTrip dom norm) {bs : Bytes} {q : β} {s' : Stream}
    (hb : t.writer a = .ok b) (hlen : (b ++ bs).length < 2 ^ 64)
    (hrest : gs.decoder (s.inList.push bs) = .ok (q, s')) :
    (optionalPtr t stop k gs rest).decoder (s.inList.push (b ++ bs)) =
      .ok ((some (norm a), q), s') := by
  rw [length_append] at hlen
  have hfits : (s.inList.push bs).Fits b.length := (fits_inList (by omega) s).push
  simp [optionalPtr, push_append, ht.reads a b _ hb (by omega) hfits, hrest]

end

/-- An optional field that is there may still hold the zero value, which is not what the
    writer produces. -/
theorem Fields.optional_accepts [DecidableEq α] (ht : t.Canonical) :
    (optional t zero).Accepts fun a b =>
      (optional t zero).writer a = .ok b ∨ a = zero ∧ t.writer zero = .ok b := by
  intro s a s' hinput h
  simp only [optional] at h ⊢
  split at h
  · cases h
    exact ⟨[], .inl (if_pos rfl), (push_nil s).symm⟩
  · cases h
  · rename_i a₁ s₁ hread
    cases h
    obtain ⟨b, hb, hs⟩ := ht s a s' hinput hread
    by_cases hzero : a = zero
    · subst hzero
      exact ⟨b, .inr ⟨rfl, hb⟩, hs⟩
    · exact ⟨b, .inl ((if_neg hzero).trans hb), hs⟩

variable {content b : Bytes}

variable (hlen : content.length < 2 ^ 64)
include hlen

variable (hfits : s.Fits (encodeList content).length)
include hfits

theorem TypeInfo.struct_reads (h : fs.decoder (s.inList.push content) = .ok (a, s.inList)) :
    (struct fs).decoder (s.push (encodeList content)) = .ok (a, s) := by
  simp [struct, list_push hlen hfits, h]

theorem TypeInfo.struct_error (h : fs.decoder (s.inList.push content) = .error err) :
    (struct fs).decoder (s.push (encodeList content)) = .error err := by
  simp [struct, list_push hlen hfits, h]

/-- A list with more values than fields. -/
theorem TypeInfo.struct_error_rest {rest : Bytes} (hrest : rest ≠ []) (hle : rest.length < 2 ^ 64)
    (h : fs.decoder (s.inList.push content) = .ok (a, s.inList.push rest)) :
    (struct fs).decoder (s.push (encodeList content)) = .error .notAtEOL := by
  simp [struct, list_push hlen hfits, h, listEnd_push hrest hle]

omit hfits

omit hlen

theorem TypeInfo.struct_roundTrip (hf : fs.RoundTrip dom norm) :
    (struct fs).RoundTrip dom norm where
  writes a ha := by
    obtain ⟨content, hcontent⟩ := hf.writes a ha
    refine ⟨encodeList content, ?_⟩
    simp [struct, hcontent]
  norm_writer a := by simp only [struct, hf.norm_writer]
  ne_nil a b h := by
    obtain ⟨content, -, h⟩ := bind_eq_ok.mp h
    cases h
    exact encodeList_ne_nil content
  eol s h := by simp [struct, list_eol h]
  reads a b s h hlen hfits := by
    obtain ⟨content, hcontent, h⟩ := bind_eq_ok.mp h
    cases h
    have hlen := length_lt_of_encodeList hlen
    exact struct_reads hlen hfits (hf.reads a content s hcontent hlen)

variable {enc : α → Bytes → Prop}

theorem TypeInfo.struct_accepts (hf : fs.Accepts enc) :
    (struct fs).Accepts fun a b => ∃ content, b = encodeList content ∧ enc a content := by
  intro s a s' hinput h
  obtain ⟨⟨size, s₁⟩, hlist, h⟩ := bind_eq_ok.mp h
  obtain ⟨⟨a₁, s₂⟩, hfields, h⟩ := bind_eq_ok.mp h
  obtain ⟨s₃, hend, h⟩ := bind_eq_ok.mp h
  cases h
  have hlength := list_length hlist
  obtain ⟨content, hcontent, rfl⟩ := hf s₁ a s₂ (by omega) hfields
  rw [listEnd_inv hend] at hlist
  exact ⟨encodeList content, ⟨content, rfl, hcontent⟩, list_inv hinput hlist⟩

theorem TypeInfo.struct_decoder_of {fs' : Fields α}
    (h : ∀ (s : Stream) (r : α × Stream), fs.decoder s = .ok r → fs'.decoder s = .ok r)
    {r : α × Stream} (hr : (struct fs).decoder s = .ok r) : (struct fs').decoder s = .ok r := by
  obtain ⟨r₁, hlist, hr⟩ := bind_eq_ok.mp hr
  obtain ⟨r₂, hfields, hr⟩ := bind_eq_ok.mp hr
  simp only [struct, hlist, h r₁.2 r₂ hfields, ok_bind]
  exact hr

theorem TypeInfo.struct_canonical (hf : fs.Canonical) : (struct fs).Canonical := by
  intro s a s' hinput h
  obtain ⟨b, ⟨content, rfl, hcontent⟩, hs⟩ := struct_accepts hf s a s' hinput h
  refine ⟨encodeList content, ?_, hs⟩
  simp [struct, hcontent]

/-! ### Other types with the same data -/

theorem TypeInfo.RoundTrip.congr (ht : t.RoundTrip dom norm) {d : α → Prop} {f : α → α}
    (hdom : ∀ a, d a → dom a) (hnorm : ∀ a, norm a = f a) : t.RoundTrip d f := by
  have hf : norm = f := funext hnorm
  subst hf
  exact ⟨fun a ha => ht.writes a (hdom a ha), ht.norm_writer, ht.ne_nil, ht.eol, ht.reads⟩

theorem TypeInfo.view_roundTrip (ht : t.RoundTrip dom norm) (hget : ∀ a, get (make a) = a) :
    (t.view get make).RoundTrip (fun b => dom (get b)) (fun b => make (norm (get b))) where
  writes b hb := ht.writes (get b) hb
  norm_writer b := by simp [view, hget, ht.norm_writer]
  ne_nil b c h := ht.ne_nil (get b) c h
  eol s h := by simp [view, ht.eol s h]
  reads b c s h hlen hfits := by
    simp [view, ht.reads (get b) c s h hlen hfits]

theorem TypeInfo.view_accepts (ht : t.Accepts enc) (hget : ∀ a, get (make a) = a) :
    (t.view get make).Accepts fun b c => enc (get b) c := by
  intro s b s' hinput h
  obtain ⟨⟨a, s₁⟩, hread, h⟩ := bind_eq_ok.mp h
  cases h
  obtain ⟨c, hc, hs⟩ := ht s a s' hinput hread
  have henc : enc (get (make a)) c := by rwa [hget]
  exact ⟨c, henc, hs⟩

/-- A slice of values that read back as they are. -/
theorem TypeInfo.slice_roundTrip_id (ht : t.RoundTrip (fun _ => True) id) :
    t.slice.RoundTrip (fun _ => True) id :=
  (slice_roundTrip ht).congr (fun _ _ _ _ => trivial) map_id

/-! ### Whole inputs -/

/-- An input in front of nothing. -/
theorem Stream.push_whole (b : Bytes) (limited : Bool) :
    push b ⟨[], limited, []⟩ = ⟨b, limited, []⟩ := by
  simp [push]

theorem decodeBytes_reads (h : ∀ s : Stream, s.Fits b.length → t.decoder (s.push b) = .ok (a, s)) :
    decodeBytes t b = .ok a := by
  have hread := h ⟨[], decide (b.length > 0), []⟩ (fits_of_stack_nil rfl _)
  rw [push_whole] at hread
  simp only [decodeBytes, hread]
  rfl

theorem decodeBytes_push (ht : t.RoundTrip dom norm) (h : t.writer a = .ok b)
    (hlen : b.length < 2 ^ 64) : decodeBytes t b = .ok (norm a) :=
  decodeBytes_reads fun s hfits => ht.reads a b s h hlen hfits

theorem decodeBytes_error (h : ∀ s : Stream, s.Fits b.length → t.decoder (s.push b) = .error err) :
    decodeBytes t b = .error err := by
  have hread := h ⟨[], decide (b.length > 0), []⟩ (fits_of_stack_nil rfl _)
  rw [push_whole] at hread
  simp [decodeBytes, hread]

theorem decodeBytes_inv (ht : t.Accepts enc) (hlen : b.length < 2 ^ 64)
    (h : decodeBytes t b = .ok a) : enc a b := by
  obtain ⟨⟨a₁, s⟩, hread, h⟩ := bind_eq_ok.mp h
  simp only at h
  split at h
  · cases h
  cases h
  obtain ⟨c, hc, hs⟩ := ht _ a s hlen hread
  have hnil : s.input = [] := length_eq_zero_iff.mp (by omega)
  have hbytes := congrArg input hs
  rw [push_input, hnil, append_nil] at hbytes
  simp only at hbytes
  rwa [hbytes]

end

/-- Encodings of different strings differ. -/
theorem encodeBytes_inj {c : Bytes} (hlen : (encodeBytes b).length < 2 ^ 64)
    (h : encodeBytes b = encodeBytes c) : b = c := by
  have hfits : ∀ n, (⟨[], false, []⟩ : Stream).Fits n := fits_of_stack_nil rfl
  have hb := bytes_push (length_lt_of_encodeBytes hlen) (hfits _)
  rw [h] at hlen hb
  have hc := bytes_push (length_lt_of_encodeBytes hlen) (hfits _)
  rw [hb] at hc
  exact (Prod.mk.inj (Except.ok.inj hc)).1

/-- A list is not a string. -/
theorem encodeList_ne_encodeBytes {c : Bytes} (hlen : (encodeList b).length < 2 ^ 64) :
    encodeList b ≠ encodeBytes c := by
  intro h
  have hfits : ∀ n, (⟨[], false, []⟩ : Stream).Fits n := fits_of_stack_nil rfl
  have hlist := kind_push_header (k := .list) (by decide) (length_lt_of_encodeList hlen) (hfits _)
  have hb : header .list b.length ++ b = encodeBytes c := h
  rw [h] at hlen
  rw [hb] at hlist
  rcases kind_encodeBytes (length_lt_of_encodeBytes hlen) (hfits _) with
    ⟨x, -, -, hkind⟩ | ⟨-, -, hkind⟩
  · rw [hkind] at hlist
    cases hlist
  · rw [hkind] at hlist
    cases hlist

/-! ### The types of the `common` package -/

namespace TypeInfo

def uint8 : TypeInfo (BitVec 8) := uint 8

def uint64 : TypeInfo U64 := uint 64

def address : TypeInfo Address := byteArray 20

def hash : TypeInfo Hash := byteArray 32

/-- `*common.Address` with the tag `nil`. -/
def addressPtr : TypeInfo (Option Address) := address.nilPtr .string

instance uint8_lawful : uint8.Lawful (fun _ => True) id :=
  uint_lawful (k := 1) (by norm_num) (by norm_num)

instance uint64_lawful : uint64.Lawful (fun _ => True) id :=
  uint_lawful (k := 8) (by norm_num) le_rfl

instance address_lawful : address.Lawful (fun _ => True) id :=
  byteArray_lawful (n := 20) (by norm_num)

instance hash_lawful : hash.Lawful (fun _ => True) id := byteArray_lawful (n := 32) (by norm_num)

instance addressPtr_lawful : addressPtr.Lawful (fun _ => True) id where
  roundTrip := by
    have hptr := nilPtr_roundTrip (k := .string) address_lawful.roundTrip
      (byteArray_nonEmpty (n := 20) (by norm_num)) (by decide)
    exact hptr.congr (fun _ _ _ _ => trivial) (fun a => Option.map_id_apply)
  canonical := nilPtr_canonical address_lawful.canonical

end TypeInfo

/-! ### Laws of structs, found by instance search -/

namespace TypeInfo

variable {t : TypeInfo α} {fs : Fields α} {gs : Fields β} {dom : α → Prop} {norm : α → α}
variable {dom' : β → Prop} {norm' : β → β}

instance [h : t.Lawful (fun _ => True) id] : t.slice.Lawful (fun _ => True) id :=
  ⟨slice_roundTrip_id h.roundTrip, slice_canonical h.canonical⟩

instance [h : t.Lawful dom norm] : (Fields.last t).Lawful dom norm :=
  ⟨Fields.last_roundTrip h.roundTrip, Fields.last_canonical h.canonical⟩

instance [h : t.Lawful dom norm] [hg : gs.Lawful dom' norm'] :
    (Fields.cons t gs).Lawful (fun p => dom p.1 ∧ dom' p.2) (Prod.map norm norm') :=
  ⟨Fields.cons_roundTrip h.roundTrip hg.roundTrip, Fields.cons_canonical h.canonical hg.canonical⟩

instance [h : fs.Lawful dom norm] : (struct fs).Lawful dom norm :=
  ⟨struct_roundTrip h.roundTrip, struct_canonical h.canonical⟩

/-- A type with the same data. -/
theorem lawful_view [h : t.Lawful dom norm] {make : α → β} {get : β → α}
    (hget : ∀ a, get (make a) = a) (hdom : ∀ b, dom' b → dom (get b))
    (hnorm : ∀ b, make (norm (get b)) = norm' b) : (t.view get make).Lawful dom' norm' :=
  ⟨(view_roundTrip h.roundTrip hget).congr hdom hnorm, view_accepts h.canonical hget⟩

end TypeInfo

end GethArb.Rlp
