/-
  **RLP** (`rlp/raw.go`, `rlp/encode.go`, `rlp/encbuffer.go`): the encoding of byte
  strings and lists, and the functions that take an encoded value apart.

  The encoder buffer of the source writes list headers when a list is closed; here a
  list is encoded from its finished content.  Lengths are those of Go slices, so the
  read-back lemmas ask for lengths below `2 ^ 64`.
-/
import GethArb.Types

namespace GethArb.Rlp

open List

/-! ### Encoding -/

/-- The number of bytes of `i`, at least one. -/
def intsize (i : Nat) : Nat := if i = 0 then 1 else Nat.log2 i / 8 + 1

def putint (i : Nat) : Bytes := bytesBE (intsize i) i

/-- The header of a string or list of the given content size. -/
def puthead (smalltag largetag size : Nat) : Bytes :=
  if size < 56 then [UInt8.ofNat (smalltag + size)]
  else UInt8.ofNat (largetag + intsize size) :: putint size

/-- `WriteBytes`. -/
def encodeBytes (b : Bytes) : Bytes :=
  match b with
  | [x] => if x ≤ 0x7F then [x] else puthead 0x80 0xB7 1 ++ [x]
  | b => puthead 0x80 0xB7 b.length ++ b

/-- A list from its encoded content (`List`, the content, `ListEnd`). -/
def encodeList (content : Bytes) : Bytes := puthead 0xC0 0xF7 content.length ++ content

def emptyString : Bytes := [0x80]

/-! ### Taking values apart -/

inductive Kind where
  | byte
  | string
  | list
deriving DecidableEq, Repr

inductive Error where
  | unexpectedEOF
  | canonSize
  | valueTooLarge
  | expectedString
  | expectedList
  -- the errors of the stream decoder and of the typed codecs
  | eol
  | eof
  | canonInt
  | elemTooLarge
  | moreThanOneValue
  | notInList
  | notAtEOL
  | uintOverflow
  | uint256Large
  | negativeBigInt
  | invalidBoolean (num : Nat)
  | tooFewElements
  | stringTooLong
  | stringTooShort
  | wrongEmptyKind (got want : Kind)
  | wrongSize (got want : Nat)
deriving DecidableEq, Repr

def readSize (b : Bytes) (slen : Nat) : Except Error Nat :=
  if b.length < slen then .error .unexpectedEOF
  else
    let s := ofBytesBE (b.take slen)
    -- sizes below 56 have no size of their own, and there are no leading zeros
    if s < 56 ∨ b.head? = some 0 then .error .canonSize else .ok s

/-- The kind of the first value of `buf` with the sizes of its tag and its content,
    before the check against the length of `buf`. -/
def readTag (b : UInt8) (buf : Bytes) : Except Error (Kind × Nat × Nat) :=
  if b < 0x80 then .ok (.byte, 0, 1)
  else if b < 0xB8 then
    let contentsize := b.toNat - 0x80
    -- a string that should have been a single byte
    if contentsize = 1 ∧ (buf.drop 1).head?.any (· < 128) then .error .canonSize
    else .ok (.string, 1, contentsize)
  else if b < 0xC0 then
    (readSize (buf.drop 1) (b.toNat - 0xB7)).map fun s => (.string, b.toNat - 0xB7 + 1, s)
  else if b < 0xF8 then .ok (.list, 1, b.toNat - 0xC0)
  else (readSize (buf.drop 1) (b.toNat - 0xF7)).map fun s => (.list, b.toNat - 0xF7 + 1, s)

def readKind (buf : Bytes) : Except Error (Kind × Nat × Nat) :=
  match buf with
  | [] => .error .unexpectedEOF
  | b :: _ => do
    let (k, tagsize, contentsize) ← readTag b buf
    if contentsize > buf.length - tagsize then .error .valueTooLarge
    else .ok (k, tagsize, contentsize)

/-- `Split`: kind and content of the first value, and what follows it. -/
def split (b : Bytes) : Except Error (Kind × Bytes × Bytes) := do
  let (k, ts, cs) ← readKind b
  .ok (k, (b.drop ts).take cs, b.drop (ts + cs))

def splitString (b : Bytes) : Except Error (Bytes × Bytes) := do
  let (k, content, rest) ← split b
  if k = .list then .error .expectedString else .ok (content, rest)

def splitList (b : Bytes) : Except Error (Bytes × Bytes) := do
  let (k, content, rest) ← split b
  if k = .list then .ok (content, rest) else .error .expectedList

/-- The loop of `CountValues`.  Every value has at least one byte, so the length of `b`
    bounds the number of passes. -/
def countLoop : Nat → Bytes → Except Error Nat
  | _, [] => .ok 0
  | 0, _ => .ok 0
  | fuel + 1, b => do
    let (_, tagsize, size) ← readKind b
    let i ← countLoop fuel (b.drop (tagsize + size))
    .ok (i + 1)

def countValues (b : Bytes) : Except Error Nat := countLoop b.length b

/-! ### Headers -/

@[simp] theorem length_bytesBE (n x : Nat) : (bytesBE n x).length = n := by
  simp [bytesBE]

theorem intsize_pos (i : Nat) : 0 < intsize i := by
  unfold intsize
  split <;> omega

theorem lt_pow_intsize (i : Nat) : i < 256 ^ intsize i := by
  unfold intsize
  split
  · subst_vars
    norm_num
  have hlog := Nat.lt_log2_self (n := i)
  have hpow : (256 : Nat) ^ (i.log2 / 8 + 1) = 2 ^ (8 * (i.log2 / 8 + 1)) := by
    rw [show (256 : Nat) = 2 ^ 8 by norm_num, ← pow_mul]
  rw [hpow]
  exact hlog.trans_le (Nat.pow_le_pow_right (by norm_num) (by omega))

variable {i n : Nat}

theorem pow_intsize_le (h : i ≠ 0) : 256 ^ (intsize i - 1) ≤ i := by
  unfold intsize
  rw [if_neg h, Nat.add_sub_cancel]
  have hpow : (256 : Nat) ^ (i.log2 / 8) = 2 ^ (8 * (i.log2 / 8)) := by
    rw [show (256 : Nat) = 2 ^ 8 by norm_num, ← pow_mul]
  rw [hpow]
  exact (Nat.pow_le_pow_right (by norm_num) (by omega)).trans (Nat.log2_self_le h)

theorem intsize_le_eight (h : i < 2 ^ 64) : intsize i ≤ 8 := by
  by_contra hlt
  have hne : i ≠ 0 := by
    rintro rfl
    simp [intsize] at hlt
  have hle := pow_intsize_le hne
  have : 256 ^ 8 ≤ 256 ^ (intsize i - 1) := Nat.pow_le_pow_right (by norm_num) (by omega)
  omega

@[simp] theorem length_putint (i : Nat) : (putint i).length = intsize i := length_bytesBE _ _

theorem ofBytesBE_putint (i : Nat) : ofBytesBE (putint i) = i := by
  rw [putint, ofBytesBE_bytesBE, Nat.mod_eq_of_lt (lt_pow_intsize i)]

/-- There is no leading zero. -/
theorem head_putint (h : i ≠ 0) : ∃ x xs, putint i = x :: xs ∧ x ≠ 0 := by
  obtain ⟨n, hn⟩ : ∃ n, intsize i = n + 1 := ⟨intsize i - 1, by have := intsize_pos i; omega⟩
  have hlt := lt_pow_intsize i
  have hle := pow_intsize_le h
  rw [hn] at hlt hle
  refine ⟨UInt8.ofNat (i >>> (8 * n)), ((range n).map fun j =>
    UInt8.ofNat (i >>> (8 * (n - 1 - j)))), ?_, ?_⟩
  · rw [putint, bytesBE, hn, range_succ_eq_map, map_cons, map_map]
    congr 1
    refine map_congr_left fun j hj => ?_
    simp only [Function.comp]
    congr 3
    omega
  · intro hzero
    have hzero := congrArg UInt8.toNat hzero
    rw [UInt8.toNat_ofNat', Nat.shiftRight_eq_div_pow, pow_mul] at hzero
    have hdiv : i / (2 ^ 8) ^ n < 256 := by
      rw [Nat.div_lt_iff_lt_mul (by positivity)]
      rw [pow_succ, mul_comm] at hlt
      exact hlt
    have hpos : 0 < i / (2 ^ 8) ^ n := Nat.div_pos (by simpa using hle) (by positivity)
    rw [Nat.mod_eq_of_lt hdiv] at hzero
    exact hpos.ne' hzero

/-- Reading back the size of a long value. -/
theorem readSize_putint (hlow : 56 ≤ i) (rest : Bytes) :
    readSize (putint i ++ rest) (intsize i) = .ok i := by
  obtain ⟨x, xs, hhead, hx⟩ := head_putint (i := i) (by omega)
  have htake : (putint i ++ rest).take (intsize i) = putint i := by
    rw [← length_putint i, take_left]
  unfold readSize
  rw [if_neg (by simp), htake, ofBytesBE_putint, if_neg]
  rw [hhead]
  simp only [cons_append, head?_cons, Option.some.injEq, not_or]
  exact ⟨by omega, hx⟩

/-! ### Reading back -/

theorem toNat_ofNat_of_lt (h : n < 256) : (UInt8.ofNat n).toNat = n := by
  rw [UInt8.toNat_ofNat', Nat.mod_eq_of_lt h]

/-- `readTag` with the first byte as a number. -/
theorem readTag_eq (b : UInt8) (buf : Bytes) : readTag b buf =
    if b.toNat < 0x80 then .ok (.byte, 0, 1)
    else if b.toNat < 0xB8 then
      if b.toNat - 0x80 = 1 ∧ (buf.drop 1).head?.any (· < 128) then .error .canonSize
      else .ok (.string, 1, b.toNat - 0x80)
    else if b.toNat < 0xC0 then
      (readSize (buf.drop 1) (b.toNat - 0xB7)).map fun s => (.string, b.toNat - 0xB7 + 1, s)
    else if b.toNat < 0xF8 then .ok (.list, 1, b.toNat - 0xC0)
    else (readSize (buf.drop 1) (b.toNat - 0xF7)).map fun s => (.list, b.toNat - 0xF7 + 1, s) := by
  simp only [UInt8.lt_iff_toNat_lt]
  rfl

/-- `b` is one encoded value: whatever follows, `readKind` finds its kind, its tag and
    its content. -/
structure Item (b : Bytes) (k : Kind) (content : Bytes) : Prop where
  ne_nil : b ≠ []
  read : ∀ rest, ∃ ts, readKind (b ++ rest) = .ok (k, ts, content.length) ∧
    ts + content.length = b.length ∧ b.drop ts = content

variable {b content : Bytes}
variable {k : Kind}

theorem Item.split (h : Item b k content) (rest : Bytes) :
    split (b ++ rest) = .ok (k, content, rest) := by
  obtain ⟨ts, hread, hlen, hdrop⟩ := h.read rest
  unfold Rlp.split
  rw [hread]
  simp only [ok_bind]
  rw [hlen, drop_left, drop_append_of_le_length (by omega), hdrop, take_left]

theorem Item.splitString (h : Item b k content) (hk : k ≠ .list) (rest : Bytes) :
    splitString (b ++ rest) = .ok (content, rest) := by
  unfold Rlp.splitString
  rw [h.split rest]
  exact if_neg hk

theorem Item.splitList (h : Item b .list content) (rest : Bytes) :
    splitList (b ++ rest) = .ok (content, rest) := by
  unfold Rlp.splitList
  rw [h.split rest]
  rfl

/-- The header of a string or a list. -/
def header (k : Kind) (size : Nat) : Bytes :=
  match k with
  | .list => puthead 0xC0 0xF7 size
  | _ => puthead 0x80 0xB7 size

theorem header_string_short (h : n < 56) : header .string n = [UInt8.ofNat (0x80 + n)] := if_pos h

theorem header_list_short (h : n < 56) : header .list n = [UInt8.ofNat (0xC0 + n)] := if_pos h

theorem header_string_long (h : ¬ n < 56) :
    header .string n = UInt8.ofNat (0xB7 + intsize n) :: putint n := if_neg h

theorem header_list_long (h : ¬ n < 56) :
    header .list n = UInt8.ofNat (0xF7 + intsize n) :: putint n := if_neg h

theorem header_ne_nil (k : Kind) (size : Nat) : header k size ≠ [] := by
  cases k <;> simp only [header, puthead] <;> split <;> simp

/-- `b` is not a single byte that stands for itself. -/
def Plain (b : Bytes) : Prop := ∀ x, b = [x] → ¬ x < 0x80

theorem small_or_plain (b : Bytes) : (∃ x, x < 0x80 ∧ b = [x]) ∨ Plain b := by
  by_cases h : ∃ x, x < 0x80 ∧ b = [x]
  · exact .inl h
  · exact .inr fun x hb hx => h ⟨x, hx, hb⟩

theorem le_iff_lt_succ (x : UInt8) : x ≤ 0x7F ↔ x < 0x80 := by
  exact Nat.lt_succ_iff.symm

theorem encodeBytes_small {x : UInt8} (hx : x < 0x80) : encodeBytes [x] = [x] :=
  if_pos ((le_iff_lt_succ x).mpr hx)

theorem encodeBytes_plain (h : Plain b) : encodeBytes b = header .string b.length ++ b := by
  match b with
  | [] => rfl
  | [x] => exact if_neg fun hx => h x rfl ((le_iff_lt_succ x).mp hx)
  | _ :: _ :: _ => rfl

/-- A value behind its header. -/
theorem item_header (hk : k ≠ .byte) (hlen : content.length < 2 ^ 64)
    (hplain : k = .string → Plain content) :
    Item (header k content.length ++ content) k content := by
  have hle := intsize_le_eight hlen
  have hpos := intsize_pos content.length
  refine ⟨by simp [header_ne_nil], fun rest =>
    ⟨(header k content.length).length, ?_, by simp, drop_left⟩⟩
  have hlong : ¬ content.length < 56 → ∀ x : UInt8, (readSize
      ((x :: putint content.length ++ content ++ rest).drop 1) (intsize content.length)).map
        (fun s => (k, intsize content.length + 1, s)) =
      .ok (k, (x :: putint content.length).length, content.length) := by
    intro hlow x
    rw [cons_append, cons_append, drop_succ_cons, drop_zero, append_assoc,
      readSize_putint (by omega), length_cons, length_putint]
    rfl
  obtain ⟨x, xs, hcons, htag⟩ : ∃ x xs, header k content.length = x :: xs ∧
      readTag x (x :: xs ++ content ++ rest) = .ok (k, (x :: xs).length, content.length) := by
    by_cases hshort : content.length < 56
    · cases k with
      | byte => exact absurd rfl hk
      | string =>
        refine ⟨_, [], header_string_short hshort, ?_⟩
        rw [readTag_eq, toNat_ofNat_of_lt (by omega), if_neg (by omega), if_pos (by omega),
          Nat.add_sub_cancel_left, if_neg]
        · rfl
        · rintro ⟨hone, hany⟩
          obtain ⟨x, rfl⟩ := length_eq_one_iff.mp hone
          exact hplain rfl x rfl (by simpa using hany)
      | list =>
        refine ⟨_, [], header_list_short hshort, ?_⟩
        rw [readTag_eq, toNat_ofNat_of_lt (by omega), if_neg (by omega), if_neg (by omega),
          if_neg (by omega), if_pos (by omega), Nat.add_sub_cancel_left]
        rfl
    · cases k with
      | byte => exact absurd rfl hk
      | string =>
        refine ⟨_, _, header_string_long hshort, ?_⟩
        rw [readTag_eq, toNat_ofNat_of_lt (by omega), if_neg (by omega), if_neg (by omega),
          if_pos (by omega), Nat.add_sub_cancel_left, hlong hshort]
      | list =>
        refine ⟨_, _, header_list_long hshort, ?_⟩
        rw [readTag_eq, toNat_ofNat_of_lt (by omega), if_neg (by omega), if_neg (by omega),
          if_neg (by omega), if_neg (by omega), Nat.add_sub_cancel_left, hlong hshort]
  rw [hcons]
  rw [cons_append, cons_append] at htag ⊢
  simp only [readKind, htag, ok_bind]
  rw [if_neg (by simp)]

/-- The kind `encodeBytes` gives a string. -/
def bytesKind (b : Bytes) : Kind :=
  match b with
  | [x] => if x ≤ 0x7F then .byte else .string
  | _ => .string

theorem bytesKind_ne_list (b : Bytes) : bytesKind b ≠ .list := by
  unfold bytesKind
  split
  · split <;> simp
  · simp

theorem item_encodeBytes (hlen : b.length < 2 ^ 64) : Item (encodeBytes b) (bytesKind b) b := by
  rcases small_or_plain b with ⟨x, hx, rfl⟩ | hplain
  · rw [encodeBytes_small hx, show bytesKind [x] = .byte from if_pos ((le_iff_lt_succ x).mpr hx)]
    refine ⟨cons_ne_nil _ _, fun rest => ⟨0, ?_, rfl, rfl⟩⟩
    simp [readKind, readTag, hx]
  have hkind : bytesKind b = .string := by
    match b with
    | [] | _ :: _ :: _ => rfl
    | [x] => exact if_neg fun hx => hplain x rfl ((le_iff_lt_succ x).mp hx)
  rw [encodeBytes_plain hplain, hkind]
  exact item_header (by decide) hlen fun _ => hplain

theorem item_encodeList (hlen : content.length < 2 ^ 64) :
    Item (encodeList content) .list content :=
  item_header (k := .list) (by decide) hlen fun h => by cases h

theorem item_emptyString : Item emptyString .string [] :=
  @item_header [] .string (by decide) (by decide) fun _ _ h => by cases h

variable (items : List Bytes)

/-- Counting the values of a list whose content is a row of items. -/
theorem countLoop_flatten (h : ∀ b ∈ items, ∃ k content, Item b k content) (fuel : Nat)
    (hfuel : items.flatten.length ≤ fuel) : countLoop fuel items.flatten = .ok items.length := by
  induction items generalizing fuel with
  | nil => cases fuel <;> rfl
  | cons b items ih =>
    obtain ⟨k, content, hb⟩ := h b mem_cons_self
    obtain ⟨ts, hread, hlen, -⟩ := hb.read items.flatten
    obtain ⟨x, xs, hcons⟩ := exists_cons_of_ne_nil hb.ne_nil
    rw [flatten_cons, length_append] at hfuel
    have hpos : 0 < b.length := length_pos_iff.mpr hb.ne_nil
    obtain ⟨fuel, rfl⟩ : ∃ n, fuel = n + 1 := ⟨fuel - 1, by omega⟩
    have hstep : countLoop (fuel + 1) (b ++ items.flatten) = (do
        let (_, tagsize, size) ← readKind (b ++ items.flatten)
        let i ← countLoop fuel ((b ++ items.flatten).drop (tagsize + size))
        .ok (i + 1)) := by
      rw [hcons]
      rfl
    rw [flatten_cons, hstep, hread]
    simp only [ok_bind]
    rw [hlen, drop_left, ih (fun b hb => h b (mem_cons_of_mem _ hb)) fuel (by omega)]
    rfl

end GethArb.Rlp
