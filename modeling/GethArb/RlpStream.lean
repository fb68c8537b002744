/-
  **The stream decoder** (`rlp/decode.go`, type `Stream`): headers, strings, integers
  and lists read one after another from an input.

  A stream is what its reader has left, whether the size of the input is known
  (`remaining` is then the length of what is left), and the number of bytes left in
  each list that is open, innermost first.  Those numbers are `uint64`: entering a list
  subtracts its size from the limit of the list around it without a check, so the
  subtraction may wrap, as in the source.

  The source keeps the header `Kind` has read until the value is read, so asking twice
  reads it once.  Here `kind` returns the header with the stream behind it, and asking
  twice is asking the same stream again.

  One operation describes all reading: `push b s` is the stream `s` with `b` in front of
  it.  Each reader has a lemma that it takes `b` off `push b s` (`*_push`), and one that
  whatever it took off was in front (`*_inv`).  The second needs no room in the lists
  around, since it is stated with the wrapping limits.
-/
import GethArb.Rlp

namespace GethArb.Rlp

open List

structure Stream where
  input : Bytes
  limited : Bool
  stack : List U64
deriving DecidableEq, Repr

/-- What `Kind` tells about the value ahead.  A single byte is its own header and has
    size zero. -/
structure Header where
  kind : Kind
  size : Nat
  byteval : UInt8
deriving DecidableEq, Repr

variable {n : Nat} {b : Bytes} {x : UInt8}

namespace Stream

/-- The check before any read of the input. -/
def willRead (s : Stream) (n : Nat) : Except Error Stream :=
  match s.stack with
  | limit :: outer =>
    if n > limit.toNat then .error .elemTooLarge
    else if s.limited ∧ n > s.input.length then .error .valueTooLarge
    else .ok { s with stack := (limit - BitVec.ofNat 64 n) :: outer }
  | [] => if s.limited ∧ n > s.input.length then .error .valueTooLarge else .ok s

def readFull (s : Stream) (n : Nat) : Except Error (Bytes × Stream) := do
  let s ← s.willRead n
  if s.input.length < n then .error .unexpectedEOF
  else .ok (s.input.take n, { s with input := s.input.drop n })

def readByte (s : Stream) : Except Error (UInt8 × Stream) := do
  let s ← s.willRead 1
  match s.input with
  | [] => .error .unexpectedEOF
  | b :: rest => .ok (b, { s with input := rest })

def readUint (s : Stream) (size : Nat) : Except Error (Nat × Stream) :=
  match size with
  | 0 => .ok (0, s)
  | 1 => do
    let (b, s) ← s.readByte
    .ok (b.toNat, s)
  | size => do
    let (buffer, s) ← s.readFull size
    -- no leading zero; the callers turn the error into `canonInt` for integer values
    if buffer.head? = some 0 then .error .canonSize else .ok (ofBytesBE buffer, s)

/-- The size that follows a long header. -/
def readLong (kind : Kind) (s : Stream) (sizesize : Nat) : Except Error (Header × Stream) := do
  let (size, s) ← s.readUint sizesize
  if size < 56 then .error .canonSize else .ok (⟨kind, size, 0⟩, s)

/-- The header for first byte `b`, read on from behind it. -/
def readTagged (b : UInt8) (s : Stream) : Except Error (Header × Stream) :=
  if b < 0x80 then .ok (⟨.byte, 0, b⟩, s)
  else if b < 0xB8 then .ok (⟨.string, b.toNat - 0x80, 0⟩, s)
  else if b < 0xC0 then readLong .string s (b.toNat - 0xB7)
  else if b < 0xF8 then .ok (⟨.list, b.toNat - 0xC0, 0⟩, s)
  else readLong .list s (b.toNat - 0xF7)

def readKind (s : Stream) : Except Error (Header × Stream) :=
  match s.readByte with
  | .error err =>
    -- at top level the end of the input is `io.EOF`
    .error (if s.stack = [] ∧ (err = .unexpectedEOF ∨ err = .valueTooLarge) then .eof else err)
  | .ok (b, s) => readTagged b s

/-- `Kind`.  The limit of the list is the one from before the header was read. -/
def kind (s : Stream) : Except Error (Header × Stream) :=
  if s.stack.head? = some 0 then .error .eol
  else do
    let (h, s') ← s.readKind
    if s.stack.head?.any fun limit => h.size > limit.toNat then .error .elemTooLarge
    else if s'.limited ∧ h.size > s'.input.length then .error .valueTooLarge
    else .ok (h, s')

def bytes (s : Stream) : Except Error (Bytes × Stream) := do
  let (h, s) ← s.kind
  match h.kind with
  | .byte => .ok ([h.byteval], s)
  | .string =>
    let (b, s) ← s.readFull h.size
    if h.size = 1 ∧ b.head?.any (· < 128) then .error .canonSize else .ok (b, s)
  | .list => .error .expectedString

/-- `ReadBytes`, into a buffer of `n` bytes. -/
def readBytes (s : Stream) (n : Nat) : Except Error (Bytes × Stream) := do
  let (h, s) ← s.kind
  match h.kind with
  | .byte => if n ≠ 1 then .error (.wrongSize 1 n) else .ok ([h.byteval], s)
  | .string =>
    if n ≠ h.size then .error (.wrongSize h.size n)
    else do
      let (b, s) ← s.readFull n
      if h.size = 1 ∧ b.head?.any (· < 128) then .error .canonSize else .ok (b, s)
  | .list => .error .expectedString

/-- `uint`, for integers of `maxbits` bits. -/
def uint (s : Stream) (maxbits : Nat) : Except Error (Nat × Stream) := do
  let (h, s) ← s.kind
  match h.kind with
  | .byte => if h.byteval = 0 then .error .canonInt else .ok (h.byteval.toNat, s)
  | .string =>
    if h.size > maxbits / 8 then .error .uintOverflow
    else match s.readUint h.size with
      | .error .canonSize => .error .canonInt
      | .error err => .error err
      | .ok (v, s) => if h.size > 0 ∧ v < 128 then .error .canonSize else .ok (v, s)
  | .list => .error .expectedString

/-- The bytes of an integer behind its header.  `large` is what happens to more than 32
    of them. -/
def readBuffer (h : Header) (s : Stream) (large : Except Error Unit) :
    Except Error (Bytes × Stream) :=
  match h.kind with
  | .list => .error .expectedString
  | .byte => .ok ([h.byteval], s)
  | .string =>
    if h.size = 0 then .ok ([], s)
    else if h.size ≤ 32 then do
      let (buffer, s) ← s.readFull h.size
      if h.size = 1 ∧ buffer.head?.any (· < 128) then .error .canonSize else .ok (buffer, s)
    else do
      large
      s.readFull h.size

/-- `decodeBigInt` and `ReadUint256` up to `SetBytes`. -/
def readInteger (s : Stream) (large : Except Error Unit) : Except Error (Bytes × Stream) := do
  let (h, s) ← s.kind
  let (buffer, s) ← readBuffer h s large
  if buffer.head? = some 0 then .error .canonInt else .ok (buffer, s)

def decodeBigInt (s : Stream) : Except Error (Nat × Stream) := do
  let (buffer, s) ← s.readInteger (.ok ())
  .ok (ofBytesBE buffer, s)

def readUint256 (s : Stream) : Except Error (U256 × Stream) := do
  let (buffer, s) ← s.readInteger (.error .uint256Large)
  .ok (BitVec.ofNat 256 (ofBytesBE buffer), s)

/-- `decodeByteArray`, into an array of `n` bytes. -/
def byteArray (s : Stream) (n : Nat) : Except Error (Bytes × Stream) := do
  let (h, s) ← s.kind
  match h.kind with
  | .byte =>
    if n = 0 then .error .stringTooLong
    else if n > 1 then .error .stringTooShort
    else .ok ([h.byteval], s)
  | .string =>
    if n < h.size then .error .stringTooLong
    else if n > h.size then .error .stringTooShort
    else do
      let (slice, s) ← s.readFull n
      if h.size = 1 ∧ slice.head?.any (· < 128) then .error .canonSize else .ok (slice, s)
  | .list => .error .expectedString

/-- `List`: the size of the list and the stream inside it. -/
def list (s : Stream) : Except Error (Nat × Stream) := do
  let (h, s) ← s.kind
  if h.kind ≠ .list then .error .expectedList
  else
    let outer := s.stack.modifyHead (· - BitVec.ofNat 64 h.size)
    .ok (h.size, { s with stack := BitVec.ofNat 64 h.size :: outer })

/-- `Raw`: the whole encoding of the next value. -/
def raw (s : Stream) : Except Error (Bytes × Stream) := do
  let (h, s) ← s.kind
  match h.kind with
  | .byte => .ok ([h.byteval], s)
  | .string => do
    let (b, s) ← s.readFull h.size
    .ok (puthead 0x80 0xB7 h.size ++ b, s)
  | .list => do
    let (b, s) ← s.readFull h.size
    .ok (puthead 0xC0 0xF7 h.size ++ b, s)

def listEnd (s : Stream) : Except Error Stream :=
  match s.stack with
  | [] => .error .notInList
  | limit :: outer => if limit > 0 then .error .notAtEOL else .ok { s with stack := outer }

/-! ### Streams with bytes in front -/

/-- `s` with `b` in front of it, in the same innermost list. -/
def push (b : Bytes) (s : Stream) : Stream :=
  { s with
    input := b ++ s.input
    stack := s.stack.modifyHead (· + BitVec.ofNat 64 b.length) }

/-- The innermost list takes `n` bytes more. -/
def Fits (s : Stream) (n : Nat) : Prop := ∀ limit ∈ s.stack.head?, limit.toNat + n < 2 ^ 64

/-- `s` inside a further list that has no bytes left. -/
def inList (s : Stream) : Stream := { s with stack := 0 :: s.stack }

@[simp] theorem push_input (b : Bytes) (s : Stream) : (s.push b).input = b ++ s.input := rfl

@[simp] theorem push_nil (s : Stream) : s.push [] = s := by
  obtain ⟨input, limited, stack⟩ := s
  cases stack <;> simp [push]

theorem push_append (a b : Bytes) (s : Stream) : s.push (a ++ b) = (s.push b).push a := by
  obtain ⟨input, limited, stack⟩ := s
  cases stack with
  | nil => simp [push]
  | cons limit outer =>
    simp only [push, append_assoc, modifyHead_cons, length_append, BitVec.ofNat_add]
    rw [BitVec.add_assoc, BitVec.add_comm (BitVec.ofNat 64 b.length)]

theorem length_push (b : Bytes) (s : Stream) :
    (s.push b).input.length = b.length + s.input.length := length_append

variable {s s' : Stream}

theorem Fits.mono {m : Nat} (h : s.Fits n) (hle : m ≤ n) : s.Fits m := by
  intro limit hlimit
  have := h limit hlimit
  omega

theorem toNat_add_ofNat {limit : U64} (h : limit.toNat + n < 2 ^ 64) :
    (limit + BitVec.ofNat 64 n).toNat = limit.toNat + n := by
  rw [BitVec.toNat_add, BitVec.toNat_ofNat, Nat.mod_eq_of_lt (show n < 2 ^ 64 by omega),
    Nat.mod_eq_of_lt h]

theorem Fits.push (h : s.Fits (b.length + n)) : (s.push b).Fits n := by
  obtain ⟨input, limited, stack⟩ := s
  cases stack with
  | nil => exact fun limit hlimit => absurd hlimit (by simp [push])
  | cons l outer =>
    intro limit hlimit
    have hl := h l rfl
    have hlimit : l + BitVec.ofNat 64 b.length = limit := by
      simpa [push] using hlimit
    rw [← hlimit, toNat_add_ofNat (by omega)]
    omega

theorem fits_inList (h : n < 2 ^ 64) (s : Stream) : s.inList.Fits n := by
  intro limit hlimit
  have hlimit : (0 : U64) = limit := by simpa [inList] using hlimit
  rw [← hlimit]
  simpa using h

theorem fits_of_stack_nil (h : s.stack = []) (n : Nat) : s.Fits n := by
  intro limit hlimit
  rw [h] at hlimit
  cases hlimit

@[simp] theorem listEnd_inList (s : Stream) : s.inList.listEnd = .ok s := by
  simp [listEnd, inList]

/-- The end of a list is not reached while there is content. -/
theorem listEnd_push {rest : Bytes} (hne : rest ≠ []) (hlen : rest.length < 2 ^ 64) :
    (s.inList.push rest).listEnd = .error .notAtEOL := by
  have hpos : 0 < rest.length := length_pos_iff.mpr hne
  have hlimit : ¬ rest.length % 2 ^ 64 = 0 := by
    rw [Nat.mod_eq_of_lt hlen]
    exact hpos.ne'
  simpa [listEnd, inList, push] using hlimit

theorem listEnd_inv (h : s.listEnd = .ok s') : s = s'.inList := by
  obtain ⟨input, limited, stack⟩ := s
  cases stack with
  | nil => cases h
  | cons limit outer =>
    simp only [listEnd] at h
    split at h
    · cases h
    · rename_i hzero
      have hzero : limit = 0 := by simpa using hzero
      cases h
      rw [hzero, inList]

/-! ### Reading the input -/

theorem willRead_push (h : s.Fits b.length) :
    (s.push b).willRead b.length = .ok { s with input := b ++ s.input } := by
  obtain ⟨input, limited, stack⟩ := s
  cases stack with
  | nil => simp [willRead, push]
  | cons limit outer =>
    have hlimit := h limit rfl
    simp only [willRead, push, modifyHead_cons, toNat_add_ofNat hlimit]
    rw [if_neg (by omega), if_neg (by simp), BitVec.add_sub_cancel]

theorem willRead_inv (h : s.willRead n = .ok s') :
    s = { s' with stack := s'.stack.modifyHead (· + BitVec.ofNat 64 n) } := by
  obtain ⟨input, limited, stack⟩ := s
  cases stack with
  | nil =>
    simp only [willRead] at h
    split at h
    · cases h
    · cases h
      rfl
  | cons limit outer =>
    simp only [willRead] at h
    split at h
    · cases h
    · split at h
      · cases h
      · cases h
        simp

theorem readFull_push (h : s.Fits b.length) : (s.push b).readFull b.length = .ok (b, s) := by
  simp only [readFull, willRead_push h, ok_bind]
  rw [if_neg (by simp), take_left, drop_left]

theorem readFull_inv (h : s.readFull n = .ok (b, s')) : b.length = n ∧ s = s'.push b := by
  obtain ⟨s₁, h₁, h⟩ := bind_eq_ok.mp h
  split at h
  · cases h
  cases h
  have hb : (s₁.input.take n).length = n := by
    rw [length_take]
    omega
  refine ⟨hb, (willRead_inv h₁).trans ?_⟩
  simp [push, hb]

theorem readByte_push (h : s.Fits 1) : (s.push [x]).readByte = .ok (x, s) := by
  have := willRead_push (b := [x]) h
  simp only [length_singleton] at this
  simp [readByte, this]

theorem readByte_inv (h : s.readByte = .ok (x, s')) : s = s'.push [x] := by
  obtain ⟨s₁, h₁, h⟩ := bind_eq_ok.mp h
  split at h
  · cases h
  · rename_i b rest hinput
    cases h
    refine (willRead_inv h₁).trans ?_
    simp [push, hinput]

end Stream

/-! ### Numbers from their bytes -/

theorem ofBytesBE_append_singleton (b : Bytes) (x : UInt8) :
    ofBytesBE (b ++ [x]) = ofBytesBE b * 256 + x.toNat := by
  simp [ofBytesBE]

theorem ofBytesBE_lt (b : Bytes) : ofBytesBE b < 256 ^ b.length := by
  induction b using reverseRecOn with
  | nil => simp [ofBytesBE]
  | append_singleton b x ih =>
    have hx : x.toNat < 256 := x.toNat_lt
    rw [ofBytesBE_append_singleton, length_append, length_singleton]
    omega

theorem bytesBE_ofBytesBE (b : Bytes) : bytesBE b.length (ofBytesBE b) = b := by
  induction b using reverseRecOn with
  | nil => rfl
  | append_singleton b x ih =>
    have hx : x.toNat < 256 := x.toNat_lt
    rw [ofBytesBE_append_singleton, length_append, length_singleton, bytesBE_succ,
      show (ofBytesBE b * 256 + x.toNat) / 256 = ofBytesBE b by omega]
    congr 2
    apply UInt8.toNat_inj.mp
    rw [UInt8.toNat_ofNat']
    omega

/-- A number without leading zeros is large. -/
theorem pow_le_ofBytesBE (hx : x ≠ 0) (xs : Bytes) : 256 ^ xs.length ≤ ofBytesBE (x :: xs) := by
  induction xs using reverseRecOn with
  | nil =>
    have hpos : x.toNat ≠ 0 := fun h => hx (UInt8.toNat_inj.mp h)
    have hval : ofBytesBE [x] = x.toNat := by simp [ofBytesBE]
    rw [length_nil]
    omega
  | append_singleton xs y ih =>
    rw [← cons_append, ofBytesBE_append_singleton, length_append, length_singleton]
    omega

theorem intsize_ofBytesBE (hx : x ≠ 0) (xs : Bytes) :
    intsize (ofBytesBE (x :: xs)) = xs.length + 1 := by
  have hlow := pow_le_ofBytesBE hx xs
  have hhigh := ofBytesBE_lt (x :: xs)
  have hpos : 0 < 256 ^ xs.length := by positivity
  have hsize := pow_intsize_le (i := ofBytesBE (x :: xs)) (by omega)
  have hlt := lt_pow_intsize (ofBytesBE (x :: xs))
  have h₁ : intsize (ofBytesBE (x :: xs)) - 1 < xs.length + 1 :=
    (Nat.pow_lt_pow_iff_right (by norm_num)).mp (hsize.trans_lt hhigh)
  have h₂ : xs.length < intsize (ofBytesBE (x :: xs)) :=
    (Nat.pow_lt_pow_iff_right (by norm_num)).mp (hlow.trans_lt hlt)
  omega

/-- `putint` undoes reading a number without leading zeros. -/
theorem putint_ofBytesBE (hx : x ≠ 0) (xs : Bytes) : putint (ofBytesBE (x :: xs)) = x :: xs := by
  rw [putint, intsize_ofBytesBE hx, ← length_cons (a := x), bytesBE_ofBytesBE]

/-! ### Headers -/

variable {h : Header} {k : Kind}

namespace Stream

variable {s s' : Stream}

theorem readUint_push {i : Nat} (hi : i ≠ 0) (h : s.Fits (intsize i)) :
    (s.push (putint i)).readUint (intsize i) = .ok (i, s) := by
  obtain ⟨x, xs, hputint, hx⟩ := head_putint hi
  have hlen := length_putint i
  have hval := ofBytesBE_putint i
  rw [hputint] at hlen hval ⊢
  rw [← hlen] at h ⊢
  cases xs with
  | nil =>
    have hval : x.toNat = i := by simpa [ofBytesBE] using hval
    simp [readUint, readByte_push h, hval]
  | cons y ys =>
    have hread := readFull_push (b := x :: y :: ys) h
    simp only [length_cons] at hread
    simp only [length_cons, readUint, hread, ok_bind, head?_cons, Option.some.injEq, hval]
    exact if_neg hx

theorem readUint_inv {size v : Nat} (h : s.readUint size = .ok (v, s')) :
    ∃ b, b.length = size ∧ s = s'.push b ∧ v = ofBytesBE b ∧ (1 < size → b.head? ≠ some 0) := by
  match size with
  | 0 =>
    cases h
    exact ⟨[], rfl, (push_nil _).symm, rfl, by omega⟩
  | 1 =>
    obtain ⟨⟨x, s₁⟩, h₁, h⟩ := bind_eq_ok.mp h
    cases h
    exact ⟨[x], rfl, readByte_inv h₁, by simp [ofBytesBE], by omega⟩
  | size + 2 =>
    obtain ⟨⟨b, s₁⟩, h₁, h⟩ := bind_eq_ok.mp h
    obtain ⟨hlen, hs⟩ := readFull_inv h₁
    simp only at h
    split at h
    · cases h
    · rename_i hzero
      cases h
      exact ⟨b, hlen, hs, rfl, fun _ => hzero⟩

theorem readLong_push (k : Kind) (hn : 56 ≤ n) (h : s.Fits (intsize n)) :
    readLong k (s.push (putint n)) (intsize n) = .ok (⟨k, n, 0⟩, s) := by
  simp only [readLong, readUint_push (show n ≠ 0 by omega) h, ok_bind]
  rw [if_neg (by omega)]

theorem readLong_inv (hn : 0 < n) (hread : readLong k s n = .ok (h, s')) :
    56 ≤ h.size ∧ h = ⟨k, h.size, 0⟩ ∧ intsize h.size = n ∧ s = s'.push (putint h.size) := by
  obtain ⟨⟨size, s₁⟩, hsize, hread⟩ := bind_eq_ok.mp hread
  simp only at hread
  split at hread
  · cases hread
  rename_i hlow
  cases hread
  obtain ⟨b, hlen, hs, hv, hhead⟩ := readUint_inv hsize
  cases b with
  | nil => exact absurd hlen (by simp; omega)
  | cons x xs =>
    -- a single byte of at least 56 is not zero, and longer sizes are checked
    have hx : x ≠ 0 := by
      rintro rfl
      cases xs with
      | nil => exact hlow (by rw [hv]; decide)
      | cons y ys => exact hhead (by rw [← hlen]; simp) rfl
    refine ⟨Nat.le_of_not_lt hlow, rfl, ?_, ?_⟩
    · rw [hv, intsize_ofBytesBE hx, ← hlen, length_cons]
    · rw [hv, putint_ofBytesBE hx, hs]

/-- `readTagged` with the first byte as a number. -/
theorem readTagged_eq (b : UInt8) (s : Stream) : readTagged b s =
    if b.toNat < 0x80 then .ok (⟨.byte, 0, b⟩, s)
    else if b.toNat < 0xB8 then .ok (⟨.string, b.toNat - 0x80, 0⟩, s)
    else if b.toNat < 0xC0 then readLong .string s (b.toNat - 0xB7)
    else if b.toNat < 0xF8 then .ok (⟨.list, b.toNat - 0xC0, 0⟩, s)
    else readLong .list s (b.toNat - 0xF7) := by
  simp only [readTagged]
  rfl

/-- Reading the header of a string or a list. -/
theorem readKind_push_header (hk : k ≠ .byte) (hn : n < 2 ^ 64) (h : s.Fits (header k n).length) :
    (s.push (header k n)).readKind = .ok (⟨k, n, 0⟩, s) := by
  have hstep : ∀ (x : UInt8) (xs : Bytes), header k n = x :: xs →
      (s.push (header k n)).readKind = readTagged x (s.push xs) := by
    intro x xs hcons
    rw [hcons] at h
    rw [hcons, ← singleton_append, push_append]
    simp only [readKind, readByte_push h.push]
  have hle := intsize_le_eight hn
  have hpos := intsize_pos n
  by_cases hshort : n < 56
  · cases k with
    | byte => exact absurd rfl hk
    | string =>
      rw [hstep _ _ (header_string_short hshort),
        readTagged_eq, toNat_ofNat_of_lt (by omega), if_neg (by omega), if_pos (by omega), push_nil,
        Nat.add_sub_cancel_left]
    | list =>
      rw [hstep _ _ (header_list_short hshort),
        readTagged_eq, toNat_ofNat_of_lt (by omega), if_neg (by omega), if_neg (by omega),
        if_neg (by omega), if_pos (by omega), push_nil, Nat.add_sub_cancel_left]
  · have hfits : s.Fits (intsize n) := by
      refine h.mono ?_
      cases k <;> simp [header, puthead, hshort]
    cases k with
    | byte => exact absurd rfl hk
    | string =>
      rw [hstep _ _ (header_string_long hshort), readTagged_eq, toNat_ofNat_of_lt (by omega),
        if_neg (by omega),
        if_neg (by omega), if_pos (by omega), Nat.add_sub_cancel_left,
        readLong_push .string (by omega) hfits]
    | list =>
      rw [hstep _ _ (header_list_long hshort), readTagged_eq, toNat_ofNat_of_lt (by omega),
        if_neg (by omega),
        if_neg (by omega), if_neg (by omega), if_neg (by omega), Nat.add_sub_cancel_left,
        readLong_push .list (by omega) hfits]

/-- What a header that was read looked like. -/
inductive HeaderOf : Header → Bytes → Prop
  | byte {x : UInt8} (hx : x < 0x80) : HeaderOf ⟨.byte, 0, x⟩ [x]
  | sized {k : Kind} {n : Nat} (hk : k ≠ .byte) (hn : n < 2 ^ 64) : HeaderOf ⟨k, n, 0⟩ (header k n)

theorem lt_of_intsize_le (h : intsize n ≤ 8) : n < 2 ^ 64 := by
  have hpow : 256 ^ intsize n ≤ 256 ^ 8 := Nat.pow_le_pow_right (by norm_num) h
  have := lt_pow_intsize n
  omega

theorem readTagged_inv {b : UInt8} (hread : readTagged b s = .ok (h, s')) :
    ∃ head, HeaderOf h head ∧ s.push [b] = s'.push head := by
  have hb : b.toNat < 256 := b.toNat_lt
  have hofNat : ∀ n, n = b.toNat → UInt8.ofNat n = b := by
    rintro n rfl
    exact UInt8.ofNat_toNat
  -- a long header, whose first byte is `tag` and the size of the size
  have hlong : ∀ k tag, k ≠ .byte → (∀ n, 56 ≤ n → header k n =
      UInt8.ofNat (tag + intsize n) :: putint n) → tag < b.toNat → b.toNat ≤ tag + 8 →
      readLong k s (b.toNat - tag) = .ok (h, s') →
      ∃ head, HeaderOf h head ∧ s.push [b] = s'.push head := by
    intro k tag hk hheader hlow hhigh hread
    obtain ⟨hsize, hh, hint, hs⟩ := readLong_inv (by omega) hread
    refine ⟨header k h.size, ?_, ?_⟩
    · rw [hh]
      exact .sized hk (lt_of_intsize_le (by omega))
    · rw [hheader _ hsize, hs, hofNat _ (by omega), ← push_append, singleton_append]
  rw [readTagged_eq] at hread
  split at hread
  · cases hread
    exact ⟨[b], .byte (UInt8.lt_iff_toNat_lt.mpr ‹_›), rfl⟩
  split at hread
  · cases hread
    refine ⟨header .string (b.toNat - 0x80), .sized (by decide) (by omega), ?_⟩
    rw [header_string_short (by omega), hofNat _ (by omega)]
  split at hread
  · exact hlong .string 0xB7 (by decide) (fun n hn => header_string_long (by omega)) (by omega)
      (by omega) hread
  split at hread
  · cases hread
    refine ⟨header .list (b.toNat - 0xC0), .sized (by decide) (by omega), ?_⟩
    rw [header_list_short (by omega), hofNat _ (by omega)]
  · exact hlong .list 0xF7 (by decide) (fun n hn => header_list_long (by omega)) (by omega)
      (by omega) hread

/-- Whatever `kind` took off the stream is the one encoding of the header it returns. -/
theorem kind_inv (hkind : s.kind = .ok (h, s')) : ∃ head, HeaderOf h head ∧ s = s'.push head := by
  rw [kind] at hkind
  split_ifs at hkind
  obtain ⟨⟨h₁, s₁⟩, hread, hkind⟩ := bind_eq_ok.mp hkind
  have hsame : (h₁, s₁) = (h, s') := by
    simp only at hkind
    split at hkind
    · cases hkind
    · split at hkind
      · cases hkind
      · exact Except.ok.inj hkind
  cases hsame
  rw [readKind] at hread
  split at hread
  · cases hread
  · rename_i b s₂ hbyte
    obtain ⟨head, hhead, hs⟩ := readTagged_inv hread
    exact ⟨head, hhead, (readByte_inv hbyte).trans hs⟩

/-- Inside a list with nothing left, there is no value. -/
theorem kind_eol (h : s.stack.head? = some 0) : s.kind = .error .eol := if_pos h

/-- A stream with bytes in front is not at the end of its list. -/
theorem head_push_ne_zero (hb : b ≠ []) (h : s.Fits b.length) :
    (s.push b).stack.head? ≠ some 0 := by
  obtain ⟨input, limited, stack⟩ := s
  have hpos : 0 < b.length := length_pos_iff.mpr hb
  cases stack with
  | nil => simp [push]
  | cons limit outer =>
    intro hzero
    have hlimit := h limit rfl
    have hzero : limit + BitVec.ofNat 64 b.length = 0 := by simpa [push] using hzero
    have hnat : limit.toNat + b.length = 0 :=
      (toNat_add_ofNat hlimit).symm.trans (congrArg BitVec.toNat hzero)
    omega

/-- The limit of the innermost list covers what is in front. -/
theorem head_push_ge (h : s.Fits b.length) (hn : n ≤ b.length) :
    ((s.push b).stack.head?.any fun limit => n > limit.toNat) = false := by
  obtain ⟨input, limited, stack⟩ := s
  cases stack with
  | nil => simp [push]
  | cons limit outer =>
    have hlimit := h limit rfl
    simp only [push, modifyHead_cons, head?_cons, Option.any_some, decide_eq_false_iff_not,
      toNat_add_ofNat hlimit]
    omega

theorem kind_push_byte (hx : x < 0x80) (h : s.Fits 1) :
    (s.push [x]).kind = .ok (⟨.byte, 0, x⟩, s) := by
  have hfits : s.Fits [x].length := h
  rw [kind, if_neg (head_push_ne_zero (by simp) hfits)]
  simp [readKind, readTagged, readByte_push h, hx]

theorem kind_push_header (hk : k ≠ .byte) {c : Bytes} (hn : c.length < 2 ^ 64)
    (h : s.Fits (header k c.length ++ c).length) :
    (s.push (header k c.length ++ c)).kind = .ok (⟨k, c.length, 0⟩, s.push c) := by
  have hne : header k c.length ++ c ≠ [] := by simp [header_ne_nil]
  have hfits : (s.push c).Fits (header k c.length).length := by
    rw [length_append, Nat.add_comm] at h
    exact h.push
  have hread : (s.push (header k c.length ++ c)).readKind = .ok (⟨k, c.length, 0⟩, s.push c) := by
    rw [push_append, readKind_push_header hk hn hfits]
  rw [kind, if_neg (head_push_ne_zero hne h)]
  simp only [hread, ok_bind,
    head_push_ge h (show c.length ≤ (header k c.length ++ c).length by simp)]
  simp

end Stream

/-! ### Strings -/

theorem encodeBytes_ne_nil (b : Bytes) : encodeBytes b ≠ [] := by
  rcases small_or_plain b with ⟨x, hx, rfl⟩ | h
  · rw [encodeBytes_small hx]
    exact cons_ne_nil _ _
  · rw [encodeBytes_plain h]
    simp [header_ne_nil]

theorem length_le_encodeBytes (b : Bytes) : b.length ≤ (encodeBytes b).length := by
  rcases small_or_plain b with ⟨x, hx, rfl⟩ | hplain
  · rw [encodeBytes_small hx]
  · rw [encodeBytes_plain hplain, length_append]
    exact Nat.le_add_left _ _

theorem length_lt_of_encodeBytes (h : (encodeBytes b).length < 2 ^ 64) :
    b.length < 2 ^ 64 := (length_le_encodeBytes b).trans_lt h

/-- The check of the readers that a string of one byte could not have been shorter. -/
theorem not_short_iff (hlen : b.length = n) :
    ¬ (n = 1 ∧ b.head?.any (· < 128) = true) ↔ Plain b := by
  constructor
  · rintro h x rfl hx
    exact h ⟨hlen.symm, by simpa using hx⟩
  · rintro h ⟨hone, hany⟩
    obtain ⟨x, rfl⟩ := length_eq_one_iff.mp (hlen.trans hone)
    exact h x rfl (by simpa using hany)

namespace Stream

variable {s s' : Stream} {b c : Bytes}

/-- The header of an encoded string. -/
theorem kind_encodeBytes (hlen : b.length < 2 ^ 64) (h : s.Fits (encodeBytes b).length) :
    (∃ x, x < 0x80 ∧ b = [x] ∧ (s.push (encodeBytes b)).kind = .ok (⟨.byte, 0, x⟩, s)) ∨
    (Plain b ∧ s.Fits b.length ∧
      (s.push (encodeBytes b)).kind = .ok (⟨.string, b.length, 0⟩, s.push b)) := by
  rcases small_or_plain b with ⟨x, hx, rfl⟩ | hplain
  · rw [encodeBytes_small hx] at h ⊢
    exact .inl ⟨x, hx, rfl, kind_push_byte hx h⟩
  · rw [encodeBytes_plain hplain] at h ⊢
    exact .inr ⟨hplain, h.mono (by simp), kind_push_header (by decide) hlen h⟩

/-- What a reader of strings finds behind a header. -/
theorem kind_cases (hkind : s.kind = .ok (h, s')) :
    (∃ x, h = ⟨.byte, 0, x⟩ ∧ s = s'.push (encodeBytes [x])) ∨
    (∃ n, h = ⟨.string, n, 0⟩ ∧ s = s'.push (header .string n)) ∨ ∃ n, h = ⟨.list, n, 0⟩ := by
  obtain ⟨head, hhead, hs⟩ := kind_inv hkind
  cases hhead with
  | @byte x hx => exact .inl ⟨x, rfl, by rw [encodeBytes_small hx, hs]⟩
  | @sized k n hk hn =>
    cases k with
    | byte => exact absurd rfl hk
    | string => exact .inr (.inl ⟨n, rfl, hs⟩)
    | list => exact .inr (.inr ⟨n, rfl⟩)

/-- The bytes behind a header, read and checked. -/
theorem content_inv {s₁ : Stream} (hs : s = s₁.push (header .string n))
    (h : (s₁.readFull n >>= fun r =>
      if n = 1 ∧ r.1.head?.any (· < 128) then .error .canonSize else .ok r) = .ok (b, s')) :
    b.length = n ∧ s = s'.push (encodeBytes b) := by
  obtain ⟨r, hread, h⟩ := bind_eq_ok.mp h
  split at h
  · cases h
  rename_i hshort
  cases h
  obtain ⟨hlen, hs₁⟩ := readFull_inv hread
  refine ⟨hlen, ?_⟩
  rw [encodeBytes_plain ((not_short_iff hlen).mp hshort), push_append, hlen, hs, hs₁]

theorem bytes_push (hlen : b.length < 2 ^ 64) (h : s.Fits (encodeBytes b).length) :
    (s.push (encodeBytes b)).bytes = .ok (b, s) := by
  rcases kind_encodeBytes hlen h with ⟨x, -, rfl, hkind⟩ | ⟨hplain, hfits, hkind⟩
  · simp [bytes, hkind]
  · simp only [bytes, hkind, ok_bind, readFull_push hfits]
    exact if_neg ((not_short_iff rfl).mpr hplain)

theorem bytes_inv (h : s.bytes = .ok (b, s')) : s = s'.push (encodeBytes b) := by
  obtain ⟨⟨hd, s₁⟩, hkind, h⟩ := bind_eq_ok.mp h
  rcases kind_cases hkind with ⟨x, rfl, hs⟩ | ⟨n, rfl, hs⟩ | ⟨n, rfl⟩
  · cases h
    exact hs
  · exact (content_inv hs h).2
  · cases h

theorem readBytes_push (hlen : b.length < 2 ^ 64) (h : s.Fits (encodeBytes b).length) :
    (s.push (encodeBytes b)).readBytes b.length = .ok (b, s) := by
  rcases kind_encodeBytes hlen h with ⟨x, -, rfl, hkind⟩ | ⟨hplain, hfits, hkind⟩
  · simp only [readBytes, hkind]
    rfl
  · simp only [readBytes, hkind, ok_bind, ne_eq, readFull_push hfits]
    exact if_neg ((not_short_iff rfl).mpr hplain)

theorem readBytes_inv (h : s.readBytes n = .ok (b, s')) : s = s'.push (encodeBytes b) := by
  obtain ⟨⟨hd, s₁⟩, hkind, h⟩ := bind_eq_ok.mp h
  rcases kind_cases hkind with ⟨x, rfl, hs⟩ | ⟨size, rfl, hs⟩ | ⟨size, rfl⟩
  · simp only at h
    split at h
    · cases h
    · cases h
      exact hs
  · simp only at h
    split at h
    · cases h
    · rename_i hsize
      have hsize : n = size := by simpa using hsize
      subst hsize
      exact (content_inv hs h).2
  · cases h

/-! ### Integers -/

theorem readUint_push_bytes (hb : b.head? ≠ some 0) (h : s.Fits b.length) :
    (s.push b).readUint b.length = .ok (ofBytesBE b, s) := by
  cases b with
  | nil => rw [push_nil]; rfl
  | cons x xs =>
    have hx : x ≠ 0 := by
      rintro rfl
      exact hb rfl
    have hpos : 0 < 256 ^ xs.length := by positivity
    have hread := readUint_push (s := s) (i := ofBytesBE (x :: xs))
      (by have := pow_le_ofBytesBE hx xs; omega) (by rwa [intsize_ofBytesBE hx])
    rwa [putint_ofBytesBE hx, intsize_ofBytesBE hx] at hread

/-- The check of `uint` that the integer could not have been a single byte. -/
theorem not_small_iff (hb : b.head? ≠ some 0) : ¬ (b.length > 0 ∧ ofBytesBE b < 128) ↔ Plain b := by
  match b with
  | [] =>
    constructor
    · exact fun _ x hx => by cases hx
    · exact fun _ h => absurd h.1 (by simp)
  | [x] =>
    have hval : ofBytesBE [x] = x.toNat := by simp [ofBytesBE]
    rw [hval]
    constructor
    · rintro h y hy hlt
      cases hy
      exact h ⟨by simp, UInt8.lt_iff_toNat_lt.mp hlt⟩
    · rintro h ⟨-, hlt⟩
      exact h x rfl (UInt8.lt_iff_toNat_lt.mpr hlt)
  | x :: y :: zs =>
    have hx : x ≠ 0 := by
      rintro rfl
      exact hb rfl
    have hlow := pow_le_ofBytesBE hx (y :: zs)
    have hpow : 256 ^ 1 ≤ 256 ^ (y :: zs).length := Nat.pow_le_pow_right (by norm_num) (by simp)
    constructor
    · exact fun _ z hz => by cases hz
    · omega

theorem uint_push (maxbits : Nat) (hb : b.head? ≠ some 0) (hlen : b.length < 2 ^ 64)
    (hmax : b.length ≤ maxbits / 8) (h : s.Fits (encodeBytes b).length) :
    (s.push (encodeBytes b)).uint maxbits = .ok (ofBytesBE b, s) := by
  rcases kind_encodeBytes hlen h with ⟨x, -, rfl, hkind⟩ | ⟨hplain, hfits, hkind⟩
  · have hx : x ≠ 0 := by
      rintro rfl
      exact hb rfl
    simp only [uint, hkind, ok_bind, if_neg hx]
    simp [ofBytesBE]
  · simp only [uint, hkind, ok_bind, readUint_push_bytes hb hfits]
    rw [if_neg (by omega), if_neg ((not_small_iff hb).mpr hplain)]

theorem uint_inv {maxbits v : Nat} (hmax : 8 ≤ maxbits) (h : s.uint maxbits = .ok (v, s')) :
    ∃ b, b.head? ≠ some 0 ∧ b.length ≤ maxbits / 8 ∧ v = ofBytesBE b ∧
      s = s'.push (encodeBytes b) := by
  obtain ⟨⟨hd, s₁⟩, hkind, h⟩ := bind_eq_ok.mp h
  rcases kind_cases hkind with ⟨x, rfl, hs⟩ | ⟨n, rfl, hs⟩ | ⟨n, rfl⟩
  · simp only at h
    split at h
    · cases h
    rename_i hzero
    cases h
    refine ⟨[x], by simpa using hzero, ?_, by simp [ofBytesBE], hs⟩
    simp only [length_singleton]
    omega
  · simp only at h
    split_ifs at h with hsize
    split at h
    · cases h
    · cases h
    rename_i v₁ s₂ hread
    split_ifs at h with hsmall
    cases h
    obtain ⟨b, hlen, hs₁, rfl, hhead⟩ := readUint_inv hread
    subst hlen
    -- one byte has no check of its own, but a zero byte is below 128
    have hzero : b.head? ≠ some 0 := by
      rcases b with _ | ⟨x, _ | ⟨y, zs⟩⟩
      · simp
      · intro hx
        cases hx
        exact hsmall ⟨by simp, by decide⟩
      · exact hhead (by simp)
    refine ⟨b, hzero, by omega, rfl, ?_⟩
    rw [encodeBytes_plain ((not_small_iff hzero).mp hsmall), push_append, hs, hs₁]
  · cases h

theorem readInteger_push (large : Except Error Unit) (hb : b.head? ≠ some 0)
    (hlen : b.length < 2 ^ 64) (hlarge : 32 < b.length → large = .ok ())
    (h : s.Fits (encodeBytes b).length) :
    (s.push (encodeBytes b)).readInteger large = .ok (b, s) := by
  rcases kind_encodeBytes hlen h with ⟨x, -, rfl, hkind⟩ | ⟨hplain, hfits, hkind⟩
  · simp only [readInteger, hkind]
    exact if_neg hb
  simp only [readInteger, readBuffer, hkind, ok_bind]
  by_cases hzero : b.length = 0
  · have hb : b = [] := length_eq_zero_iff.mp hzero
    subst hb
    simp
  · rw [if_neg hzero]
    by_cases hsize : b.length ≤ 32
    · simp [if_pos hsize, readFull_push hfits, if_neg ((not_short_iff rfl).mpr hplain), if_neg hb]
    · simp [if_neg hsize, hlarge (by omega), readFull_push hfits, if_neg hb]

theorem readInteger_inv {large : Except Error Unit} (h : s.readInteger large = .ok (b, s')) :
    b.head? ≠ some 0 ∧ (32 < b.length → large = .ok ()) ∧ s = s'.push (encodeBytes b) := by
  obtain ⟨⟨hd, s₁⟩, hkind, h⟩ := bind_eq_ok.mp h
  obtain ⟨⟨b₁, s₂⟩, hbuffer, h⟩ := bind_eq_ok.mp h
  simp only at h
  split_ifs at h with hzero
  cases h
  refine ⟨hzero, ?_⟩
  simp only [readBuffer] at hbuffer
  rcases kind_cases hkind with ⟨x, rfl, hs⟩ | ⟨n, rfl, hs⟩ | ⟨n, rfl⟩
  · cases hbuffer
    exact ⟨fun hlt => absurd hlt (by simp), hs⟩
  · simp only at hbuffer
    split at hbuffer
    · rename_i hn
      subst hn
      cases hbuffer
      exact ⟨fun hlt => absurd hlt (by simp), hs⟩
    split at hbuffer
    · obtain ⟨hlen, hs⟩ := content_inv hs hbuffer
      exact ⟨fun hlt => by omega, hs⟩
    obtain ⟨⟨⟩, hlarge, hread⟩ := bind_eq_ok.mp hbuffer
    obtain ⟨hlen, hs₁⟩ := readFull_inv hread
    have hplain : Plain b := by
      rintro x rfl
      simp only [length_singleton] at hlen
      omega
    refine ⟨fun _ => hlarge, ?_⟩
    rw [encodeBytes_plain hplain, push_append, hlen, hs, hs₁]
  · cases hbuffer

/-! ### Byte arrays -/

theorem byteArray_push (hlen : b.length < 2 ^ 64) (h : s.Fits (encodeBytes b).length) :
    (s.push (encodeBytes b)).byteArray b.length = .ok (b, s) := by
  rcases kind_encodeBytes hlen h with ⟨x, -, rfl, hkind⟩ | ⟨hplain, hfits, hkind⟩
  · simp only [byteArray, hkind]
    rfl
  · simp only [byteArray, hkind, ok_bind, lt_irrefl, readFull_push hfits]
    exact if_neg ((not_short_iff rfl).mpr hplain)

theorem byteArray_inv (h : s.byteArray n = .ok (b, s')) :
    b.length = n ∧ s = s'.push (encodeBytes b) := by
  obtain ⟨⟨hd, s₁⟩, hkind, h⟩ := bind_eq_ok.mp h
  rcases kind_cases hkind with ⟨x, rfl, hs⟩ | ⟨size, rfl, hs⟩ | ⟨size, rfl⟩
  · split_ifs at h
    cases h
    refine ⟨?_, hs⟩
    simp only [length_singleton]
    omega
  · simp only at h
    split_ifs at h
    have hsize : size = n := by omega
    subst hsize
    exact content_inv hs h
  · cases h

/-! ### Lists -/

theorem kind_encodeList (hlen : c.length < 2 ^ 64) (h : s.Fits (encodeList c).length) :
    (s.push (encodeList c)).kind = .ok (⟨.list, c.length, 0⟩, s.push c) :=
  kind_push_header (k := .list) (by decide) hlen h

theorem list_push (hlen : c.length < 2 ^ 64) (h : s.Fits (encodeList c).length) :
    (s.push (encodeList c)).list = .ok (c.length, s.inList.push c) := by
  simp only [list, kind_encodeList hlen h]
  obtain ⟨input, limited, stack⟩ := s
  cases stack with
  | nil => simp [push, inList]
  | cons limit outer => simp [push, inList]

theorem raw_push_list (hlen : c.length < 2 ^ 64) (h : s.Fits (encodeList c).length) :
    (s.push (encodeList c)).raw = .ok (encodeList c, s) := by
  have hfits : s.Fits c.length := h.mono (by rw [encodeList, length_append]; omega)
  simp only [raw, kind_encodeList hlen h, ok_bind, readFull_push hfits]
  rfl

/-- An integer is not read from a list. -/
theorem uint_push_list (hlen : c.length < 2 ^ 64) (h : s.Fits (encodeList c).length)
    (maxbits : Nat) : (s.push (encodeList c)).uint maxbits = .error .expectedString := by
  simp [uint, kind_encodeList hlen h]

/-- A list is not read from a string. -/
theorem list_push_bytes (hlen : b.length < 2 ^ 64) (h : s.Fits (encodeBytes b).length) :
    (s.push (encodeBytes b)).list = .error .expectedList := by
  rcases kind_encodeBytes hlen h with ⟨x, -, -, hkind⟩ | ⟨-, -, hkind⟩
  all_goals
    simp only [list, hkind]
    rfl

/-- A list that was entered and left again held exactly the bytes its header says, even
    though the limits around it may have wrapped. -/
theorem list_inv {size : Nat} (hinput : s.input.length < 2 ^ 64)
    (h : s.list = .ok (size, s'.inList.push c)) : s = s'.push (encodeList c) := by
  obtain ⟨⟨hd, s₁⟩, hkind, h⟩ := bind_eq_ok.mp h
  obtain ⟨head, hhead, hs⟩ := kind_inv hkind
  cases hhead with
  | byte hx => cases h
  | @sized k n hk hn =>
    cases k with
    | byte => exact absurd rfl hk
    | string => cases h
    | list =>
      simp only [ne_eq, not_true_eq_false, if_false, Except.ok.injEq, Prod.mk.injEq] at h
      obtain ⟨hsize, hstream⟩ := h
      obtain ⟨input, limited, stack⟩ := s₁
      simp only [push, inList, modifyHead_cons, Stream.mk.injEq, cons.injEq] at hstream
      obtain ⟨hin, hlim, hlimit, hstack⟩ := hstream
      have hlen : n = c.length := by
        have hcin : c.length < 2 ^ 64 := by
          have hlength := congrArg (fun s => s.input.length) hs
          simp only [length_push, hin, length_append] at hlength
          omega
        have hlimit : BitVec.ofNat 64 n = BitVec.ofNat 64 c.length := by simpa using hlimit
        have hnat := congrArg BitVec.toNat hlimit
        rw [BitVec.toNat_ofNat, BitVec.toNat_ofNat, Nat.mod_eq_of_lt hn,
          Nat.mod_eq_of_lt hcin] at hnat
        exact hnat
      subst hlen
      have hs₁ : (⟨input, limited, stack⟩ : Stream) = s'.push c := by
        rw [push, Stream.mk.injEq]
        refine ⟨hin, hlim, ?_⟩
        rw [← hstack]
        cases stack <;> simp
      rw [hs, hs₁, ← push_append]
      rfl

end Stream

end GethArb.Rlp
