/-
  **Generic RLP values** (`rlp/raw.go`, `rlp/decode.go`, `rlp/encbuffer.go`): the two
  parsers and the encoder, on trees of byte strings and lists.

    * `Stream.item` reads a tree from a stream (`Kind`, `List`, `Bytes`, `ListEnd`);
    * `splitItem` reads it from a slice (`Split`, `SplitList`);
    * `EncBuffer.write` is the encoder, which keeps the list headers apart from the
      string data and puts them in place in `copyTo`.

  Each of them is compared with `Tree.enc`, the encoding from finished contents: both
  parsers accept exactly the bytes `t.enc` for `t` (`item_inv` and `item_push`,
  `splitItem_inv` and `splitItem_append`), and the encoder produces them (`write_spec`).
-/
import GethArb.RlpTypes

namespace GethArb.Rlp

open List Rlp.Stream

inductive Tree where
  | bytes (b : Bytes)
  | list (items : List Tree)
deriving Repr

/-! ### The parsers

A value has at least one byte, so twice the length of the input bounds the depth of the
calls. -/

mutual

def Stream.item : Nat → Stream → Except Error (Tree × Stream)
  | 0, _ => .error .unexpectedEOF
  | fuel + 1, s => do
    let (h, _) ← s.kind
    if h.kind = .list then
      let (_, s) ← s.list
      let (items, s) ← items fuel s
      let s ← s.listEnd
      .ok (.list items, s)
    else
      let (b, s) ← s.bytes
      .ok (.bytes b, s)

/-- The values up to the end of the list. -/
def Stream.items : Nat → Stream → Except Error (List Tree × Stream)
  | 0, _ => .error .unexpectedEOF
  | fuel + 1, s =>
    match s.kind with
    | .error .eol => .ok ([], s)
    | _ => do
      let (t, s) ← item fuel s
      let (ts, s) ← items fuel s
      .ok (t :: ts, s)

end

/-- One value and then the end of the input.  `limited` tells whether the stream knows the
    size of its input. -/
def decodeStream (limited : Bool) (b : Bytes) : Except Error Tree := do
  let (t, s) ← item (2 * b.length) ⟨b, limited, []⟩
  if s.input ≠ [] then .error .moreThanOneValue else .ok t

mutual

def splitItem : Nat → Bytes → Except Error (Tree × Bytes)
  | 0, _ => .error .unexpectedEOF
  | fuel + 1, b => do
    let (k, content, rest) ← split b
    if k = .list then
      let (content, rest) ← splitList b
      let items ← splitItems fuel content
      .ok (.list items, rest)
    else .ok (.bytes content, rest)

def splitItems : Nat → Bytes → Except Error (List Tree)
  | 0, _ => .error .unexpectedEOF
  | fuel + 1, b =>
    if b = [] then .ok []
    else do
      let (t, rest) ← splitItem fuel b
      let ts ← splitItems fuel rest
      .ok (t :: ts)

end

def decodeSplit (b : Bytes) : Except Error Tree := do
  let (t, rest) ← splitItem (2 * b.length) b
  if rest ≠ [] then .error .moreThanOneValue else .ok t

/-! ### The encoder buffer -/

structure ListHead where
  offset : Nat
  size : Nat

structure EncBuffer where
  str : Bytes
  lheads : List ListHead
  lhsize : Nat

def headsize (size : Nat) : Nat := if size < 56 then 1 else 1 + intsize size

def ListHead.encode (head : ListHead) : Bytes := puthead 0xC0 0xF7 head.size

namespace EncBuffer

def size (buf : EncBuffer) : Nat := buf.str.length + buf.lhsize

def writeBytes (buf : EncBuffer) (b : Bytes) : EncBuffer :=
  { buf with str := buf.str ++ encodeBytes b }

/-- `list`: while the list is open, its header holds the size of the headers before it. -/
def list (buf : EncBuffer) : EncBuffer × Nat :=
  ({ buf with lheads := buf.lheads ++ [⟨buf.str.length, buf.lhsize⟩] }, buf.lheads.length)

def listEnd (buf : EncBuffer) (index : Nat) : EncBuffer :=
  match buf.lheads[index]? with
  | none => buf
  | some lh =>
    let size := buf.size - lh.offset - lh.size
    { buf with
      lheads := buf.lheads.set index { lh with size := size }
      lhsize := buf.lhsize + headsize size }

/-- The loop of `copyTo`, with the string data from `strpos` on still to be written. -/
def copyLoop (str : Bytes) : List ListHead → Nat → Bytes
  | [], strpos => str.drop strpos
  | head :: lheads, strpos =>
    let before := (str.take head.offset).drop strpos
    before ++ head.encode ++ copyLoop str lheads (strpos + before.length)

def copyTo (buf : EncBuffer) : Bytes := copyLoop buf.str buf.lheads 0

mutual

def write : Tree → EncBuffer → EncBuffer
  | .bytes b, buf => buf.writeBytes b
  | .list items, buf => (writeAll items buf.list.1).listEnd buf.list.2

def writeAll : List Tree → EncBuffer → EncBuffer
  | [], buf => buf
  | t :: ts, buf => writeAll ts (write t buf)

end

end EncBuffer

/-- The tree written to an empty buffer. -/
def encodeTree (t : Tree) : EncBuffer := EncBuffer.write t ⟨[], [], 0⟩

/-! ### Encoding from finished contents -/

mutual

def Tree.enc : Tree → Bytes
  | .bytes b => encodeBytes b
  | .list items => encodeList (encAll items)

def encAll : List Tree → Bytes
  | [] => []
  | t :: ts => t.enc ++ encAll ts

end

theorem length_puthead_list (n : Nat) : (puthead 0xC0 0xF7 n).length = headsize n := by
  unfold puthead headsize
  split
  · rfl
  · rw [length_cons, length_putint, Nat.add_comm]

theorem length_enc_list (items : List Tree) :
    (Tree.list items).enc.length = headsize (encAll items).length + (encAll items).length := by
  rw [Tree.enc, encodeList, length_append, length_puthead_list]

theorem headsize_pos (n : Nat) : 0 < headsize n := by
  unfold headsize
  split <;> omega

theorem length_enc_pos (t : Tree) : 0 < t.enc.length := by
  cases t with
  | bytes b => exact length_pos_iff.mpr (encodeBytes_ne_nil b)
  | list items =>
    rw [length_enc_list]
    exact Nat.add_pos_left (headsize_pos _) _

/-! ### The stream -/

namespace Stream

mutual

/-- Whatever `item` took off the stream is the encoding of the tree it returns. -/
theorem item_inv {fuel : Nat} {s s' : Stream} {t : Tree} (hlen : s.input.length < 2 ^ 64)
    (h : item fuel s = .ok (t, s')) : s = s'.push t.enc := by
  match fuel with
  | 0 => cases h
  | fuel + 1 =>
    obtain ⟨⟨hd, s₁⟩, -, h⟩ := bind_eq_ok.mp h
    simp only at h
    split at h
    · obtain ⟨⟨n, s₂⟩, hlist, h⟩ := bind_eq_ok.mp h
      obtain ⟨⟨items, s₃⟩, hitems, h⟩ := bind_eq_ok.mp h
      obtain ⟨s₄, hend, h⟩ := bind_eq_ok.mp h
      cases h
      have hle := list_length hlist
      have hs₂ : s₂ = s₃.push (encAll items) := items_inv (hle.trans_lt hlen) hitems
      rw [show s₃ = s'.inList from listEnd_inv hend] at hs₂
      rw [hs₂] at hlist
      exact list_inv hlen hlist
    · obtain ⟨⟨b, s₂⟩, hbytes, h⟩ := bind_eq_ok.mp h
      cases h
      exact bytes_inv hbytes

theorem items_inv {fuel : Nat} {s s' : Stream} {ts : List Tree} (hlen : s.input.length < 2 ^ 64)
    (h : items fuel s = .ok (ts, s')) : s = s'.push (encAll ts) := by
  match fuel with
  | 0 => cases h
  | fuel + 1 =>
    rw [items] at h
    split at h
    · cases h
      rw [encAll, push_nil]
    obtain ⟨⟨t, s₁⟩, hitem, h⟩ := bind_eq_ok.mp h
    obtain ⟨⟨ts, s₂⟩, hitems, h⟩ := bind_eq_ok.mp h
    cases h
    have hs := item_inv hlen hitem
    have hs₁ : s₁.input.length < 2 ^ 64 := by
      rw [hs, length_push] at hlen
      omega
    rw [hs, items_inv hs₁ hitems, encAll, push_append]

end

mutual

theorem item_push (t : Tree) (fuel : Nat) {s : Stream} (hfuel : 2 * t.enc.length ≤ fuel)
    (hlen : t.enc.length < 2 ^ 64) (h : s.Fits t.enc.length) :
    item fuel (s.push t.enc) = .ok (t, s) := by
  have hpos := length_enc_pos t
  obtain ⟨fuel, rfl⟩ : ∃ n, fuel = n + 1 := ⟨fuel - 1, by omega⟩
  match t with
  | .bytes b =>
    rw [Tree.enc] at hlen h ⊢
    have hb := length_lt_of_encodeBytes hlen
    have hread := bytes_push hb h
    rcases kind_encodeBytes hb h with ⟨x, -, -, hkind⟩ | ⟨-, -, hkind⟩ <;>
      simp [item, hkind, hread]
  | .list items =>
    rw [length_enc_list] at hfuel hlen
    have hhead := headsize_pos (encAll items).length
    rw [Tree.enc] at h ⊢
    have hlen : (encAll items).length < 2 ^ 64 := by omega
    have hitems := items_push items fuel (s := s) (by omega) hlen
    simp [item, kind_encodeList hlen h, list_push hlen h, hitems]

theorem items_push (ts : List Tree) (fuel : Nat) {s : Stream}
    (hfuel : 2 * (encAll ts).length + 1 ≤ fuel) (hlen : (encAll ts).length < 2 ^ 64) :
    items fuel (s.inList.push (encAll ts)) = .ok (ts, s.inList) := by
  obtain ⟨fuel, rfl⟩ : ∃ n, fuel = n + 1 := ⟨fuel - 1, by omega⟩
  match ts with
  | [] => rw [encAll, push_nil, items, kind_eol (by rfl)]
  | t :: ts =>
    rw [encAll, length_append] at hfuel hlen
    have hpos := length_enc_pos t
    have hfits : (s.inList.push (encAll ts)).Fits t.enc.length :=
      (fits_inList (n := (encAll ts).length + t.enc.length) (by omega) s).push
    have hitem := item_push t fuel (by omega) (by omega) hfits
    have hitems := items_push ts fuel (s := s) (by omega) (by omega)
    rw [encAll, push_append, items]
    split
    · -- `item` asks for the kind first, so it would have failed too
      rename_i hkind
      obtain ⟨fuel, rfl⟩ : ∃ n, fuel = n + 1 := ⟨fuel - 1, by omega⟩
      rw [item, hkind] at hitem
      cases hitem
    · simp [hitem, hitems]

end

end Stream

/-! ### Slices -/

theorem readSize_inv {b : Bytes} {slen size : Nat} (hpos : 0 < slen)
    (h : readSize b slen = .ok size) : 56 ≤ size ∧ intsize size = slen ∧ b.take slen =
      putint size := by
  unfold readSize at h
  split at h
  · cases h
  rename_i hlen
  dsimp only at h
  split at h
  · cases h
  rename_i hcanon
  cases h
  obtain ⟨hlow, hhead⟩ := not_or.mp hcanon
  obtain ⟨x, xs, rfl⟩ := exists_cons_of_length_pos (show 0 < b.length by omega)
  obtain ⟨n, rfl⟩ : ∃ n, slen = n + 1 := ⟨slen - 1, by omega⟩
  have hx : x ≠ 0 := fun hx => hhead (by rw [hx]; rfl)
  rw [take_succ_cons] at hlow ⊢
  refine ⟨Nat.le_of_not_lt hlow, ?_, (putint_ofBytesBE hx _).symm⟩
  rw [intsize_ofBytesBE hx, length_take, Nat.min_eq_left (by rw [length_cons] at hlen; omega)]

/-- The tag that was read is the header of a value of that size. -/
theorem readTag_inv {x : UInt8} {xs : Bytes} {k : Kind} {ts cs : Nat}
    (h : readTag x (x :: xs) = .ok (k, ts, cs)) :
    (k = .byte ∧ ts = 0 ∧ cs = 1 ∧ x < 0x80) ∨
    (k ≠ .byte ∧ (x :: xs).take ts = header k cs ∧ ts = (header k cs).length ∧
      (k = .string → ¬ (cs = 1 ∧ xs.head?.any (· < 128)))) := by
  have hofNat : ∀ n, n = x.toNat → UInt8.ofNat n = x := by
    rintro n rfl
    exact UInt8.ofNat_toNat
  -- the two long forms
  have hlong : ∀ k' tag, k' ≠ .byte → (∀ n, 56 ≤ n → header k' n =
      UInt8.ofNat (tag + intsize n) :: putint n) → tag < x.toNat →
      (readSize xs (x.toNat - tag)).map (fun s => (k', x.toNat - tag + 1, s)) = .ok (k, ts, cs) →
      k ≠ .byte ∧ (x :: xs).take ts = header k cs ∧ ts = (header k cs).length ∧
        (k = .string → ¬ (cs = 1 ∧ xs.head?.any (· < 128))) := by
    intro k' tag hk hheader hlow hread
    cases hsize : readSize xs (x.toNat - tag) with
    | error err =>
      rw [hsize] at hread
      cases hread
    | ok size =>
      rw [hsize] at hread
      cases hread
      obtain ⟨hge, hint, htake⟩ := readSize_inv (by omega) hsize
      rw [hheader _ hge, take_succ_cons, htake, hofNat _ (by omega), length_cons,
        length_putint, hint]
      exact ⟨hk, rfl, rfl, by omega⟩
  rw [readTag_eq] at h
  split at h
  · cases h
    exact .inl ⟨rfl, rfl, rfl, UInt8.lt_iff_toNat_lt.mpr ‹_›⟩
  refine .inr ?_
  split at h
  · split at h
    · cases h
    · rename_i hcanon
      cases h
      rw [header_string_short (by omega), hofNat _ (by omega)]
      exact ⟨by decide, rfl, rfl, fun _ => hcanon⟩
  split at h
  · exact hlong .string 0xB7 (by decide) (fun n hn => header_string_long (by omega)) (by omega) h
  split at h
  · cases h
    rw [header_list_short (by omega), hofNat _ (by omega)]
    exact ⟨by decide, rfl, rfl, nofun⟩
  · exact hlong .list 0xF7 (by decide) (fun n hn => header_list_long (by omega)) (by omega) h

/-- Whatever `split` took off is the encoding of the value it returns. -/
theorem split_inv {b content rest : Bytes} {k : Kind} (h : split b = .ok (k, content, rest)) :
    b = (if k = .list then encodeList content else encodeBytes content) ++ rest := by
  obtain ⟨⟨k, ts, cs⟩, hread, h⟩ := bind_eq_ok.mp h
  cases h
  match b with
  | [] => cases hread
  | x :: xs =>
    obtain ⟨⟨k, ts, cs⟩, htag, hread⟩ := bind_eq_ok.mp hread
    dsimp only at hread
    split at hread
    · cases hread
    cases hread
    rcases readTag_inv htag with ⟨rfl, rfl, rfl, hx⟩ | ⟨hk, htake, hts, hcanon⟩
    · exact (congrArg (· ++ xs) (encodeBytes_small hx)).symm
    have hlen : (((x :: xs).drop ts).take cs).length = cs := by
      rw [length_take, length_drop]
      omega
    have hb : x :: xs = header k cs ++ ((x :: xs).drop ts).take cs ++ (x :: xs).drop (ts + cs) := by
      rw [← htake, append_assoc, ← drop_drop, take_append_drop, take_append_drop]
    refine hb.trans (congrArg (· ++ _) ?_)
    cases k with
    | byte => exact absurd rfl hk
    | list => rw [encodeList, hlen]; rfl
    | string =>
      have hplain : Plain (((x :: xs).drop ts).take cs) := by
        intro y hy hsmall
        have hone : cs = 1 := by rw [← hlen, hy]; rfl
        refine hcanon rfl ⟨hone, ?_⟩
        subst hone hts
        cases xs with
        | nil => cases hy
        | cons z zs =>
          cases hy
          simpa using hsmall
      rw [if_neg (by decide), encodeBytes_plain hplain, hlen]

mutual

theorem splitItem_inv {fuel : Nat} {b rest : Bytes} {t : Tree}
    (h : splitItem fuel b = .ok (t, rest)) : b = t.enc ++ rest := by
  match fuel with
  | 0 => cases h
  | fuel + 1 =>
    obtain ⟨⟨k, content, rest₁⟩, hsplit, h⟩ := bind_eq_ok.mp h
    dsimp only at h
    split at h
    · obtain ⟨⟨content, rest₂⟩, hlist, h⟩ := bind_eq_ok.mp h
      obtain ⟨items, hitems, h⟩ := bind_eq_ok.mp h
      cases h
      rw [‹k = _›] at hsplit
      rw [splitList, hsplit] at hlist
      cases hlist
      rw [Tree.enc, ← splitItems_inv hitems]
      exact split_inv hsplit
    · cases h
      rw [Tree.enc]
      exact (split_inv hsplit).trans (by rw [if_neg ‹_›])

theorem splitItems_inv {fuel : Nat} {b : Bytes} {ts : List Tree}
    (h : splitItems fuel b = .ok ts) : b = encAll ts := by
  match fuel with
  | 0 => cases h
  | fuel + 1 =>
    rw [splitItems] at h
    split at h
    · cases h
      rwa [encAll]
    obtain ⟨⟨t, rest⟩, hitem, h⟩ := bind_eq_ok.mp h
    obtain ⟨ts, hitems, h⟩ := bind_eq_ok.mp h
    cases h
    rw [encAll, ← splitItems_inv hitems]
    exact splitItem_inv hitem

end

mutual

theorem splitItem_append (t : Tree) (fuel : Nat) (hfuel : 2 * t.enc.length ≤ fuel)
    (hlen : t.enc.length < 2 ^ 64) (rest : Bytes) : splitItem fuel (t.enc ++ rest) =
      .ok (t, rest) := by
  have hpos := length_enc_pos t
  obtain ⟨fuel, rfl⟩ : ∃ n, fuel = n + 1 := ⟨fuel - 1, by omega⟩
  match t with
  | .bytes b =>
    rw [Tree.enc] at hlen ⊢
    have hsplit := (item_encodeBytes (length_lt_of_encodeBytes hlen)).split rest
    simp [splitItem, hsplit, bytesKind_ne_list]
  | .list items =>
    rw [length_enc_list] at hfuel hlen
    have hhead := headsize_pos (encAll items).length
    have hitem := item_encodeList (show (encAll items).length < 2 ^ 64 by omega)
    have hitems := splitItems_encAll items fuel (by omega) (by omega)
    rw [Tree.enc]
    simp [splitItem, hitem.split rest, hitem.splitList rest, hitems]

theorem splitItems_encAll (ts : List Tree) (fuel : Nat) (hfuel : 2 * (encAll ts).length + 1 ≤ fuel)
    (hlen : (encAll ts).length < 2 ^ 64) : splitItems fuel (encAll ts) = .ok ts := by
  obtain ⟨fuel, rfl⟩ : ∃ n, fuel = n + 1 := ⟨fuel - 1, by omega⟩
  match ts with
  | [] => rfl
  | t :: ts =>
    rw [encAll, length_append] at hfuel hlen
    have hpos := length_enc_pos t
    have hne : t.enc ++ encAll ts ≠ [] := append_ne_nil_of_left_ne_nil (length_pos_iff.mp hpos) _
    have hitem := splitItem_append t fuel (by omega) (by omega) (encAll ts)
    have hitems := splitItems_encAll ts fuel (by omega) (by omega)
    rw [encAll, splitItems, if_neg hne]
    simp [hitem, hitems]

end

/-! ### Headers put in place -/

namespace EncBuffer

/-- Behind `before`, the string data `str` with `lheads` stands for `out`: the headers take
    `n` bytes, and the loop writes `out` when it comes from `before`, whatever follows. -/
structure Segment (before str : Bytes) (lheads : List ListHead) (n : Nat) (out : Bytes) : Prop where
  size : str.length + n = out.length
  offset : ∀ head ∈ lheads, before.length ≤ head.offset
  copy : ∀ after rest, (∀ head ∈ rest.head?, (before ++ str).length ≤ head.offset) →
    copyLoop (before ++ str ++ after) (lheads ++ rest) before.length =
      out ++ copyLoop (before ++ str ++ after) rest (before ++ str).length

variable {before str str' out out' : Bytes} {lheads lheads' : List ListHead} {n n' : Nat}

theorem segment_str (before str : Bytes) : Segment before str [] 0 str := by
  refine ⟨rfl, by simp, ?_⟩
  intro after rest hrest
  cases rest with
  | nil => simp [copyLoop]
  | cons head rest =>
    have hoff := hrest head rfl
    have htake : (before ++ str ++ after).take head.offset =
        before ++ str ++ after.take (head.offset - (before ++ str).length) := by
      rw [take_append, take_of_length_le hoff]
    have hbefore : (before ++ str ++ after.take (head.offset - (before ++ str).length)).drop
        before.length = str ++ after.take (head.offset - (before ++ str).length) := by
      rw [append_assoc, drop_left]
    rw [nil_append, copyLoop, copyLoop, htake]
    simp [Nat.add_assoc]

theorem Segment.append (h : Segment before str lheads n out)
    (h' : Segment (before ++ str) str' lheads' n' out') :
    Segment before (str ++ str') (lheads ++ lheads') (n + n') (out ++ out') := by
  refine ⟨?_, ?_, ?_⟩
  · have hsize := h.size
    have hsize' := h'.size
    simp only [length_append]
    omega
  · intro head hhead
    rcases mem_append.mp hhead with hhead | hhead
    · exact h.offset head hhead
    · have hoff := h'.offset head hhead
      rw [length_append] at hoff
      omega
  · intro after rest hrest
    rw [← append_assoc] at hrest ⊢
    have hnext : ∀ head ∈ (lheads' ++ rest).head?, (before ++ str).length ≤ head.offset := by
      intro head hhead
      cases lheads' with
      | cons _ _ =>
        cases hhead
        exact h'.offset head mem_cons_self
      | nil =>
        have hoff := hrest head hhead
        rw [length_append] at hoff
        omega
    have hfirst := h.copy (str' ++ after) (lheads' ++ rest) hnext
    rw [← append_assoc] at hfirst
    rw [append_assoc lheads, hfirst, h'.copy after rest hrest, append_assoc out]

theorem Segment.list (h : Segment before str lheads n out) :
    Segment before str (⟨before.length, out.length⟩ :: lheads) (n + headsize out.length)
      (encodeList out) := by
  refine ⟨?_, ?_, ?_⟩
  · rw [encodeList, length_append, length_puthead_list, ← h.size]
    omega
  · simpa using h.offset
  · intro after rest hrest
    have hnone : ((before ++ str ++ after).take before.length).drop before.length = [] := by simp
    rw [cons_append, copyLoop, hnone, length_nil, Nat.add_zero, h.copy after rest hrest, encodeList,
      append_assoc (puthead _ _ _)]
    rfl

/-- Closing the list that was opened before `lheads`. -/
theorem listEnd_eq (buf : EncBuffer) (hsize : str.length + n = out.length) :
    listEnd ⟨buf.str ++ str, buf.list.1.lheads ++ lheads, buf.lhsize + n⟩ buf.list.2 =
      ⟨buf.str ++ str, buf.lheads ++ ⟨buf.str.length, out.length⟩ :: lheads,
        buf.lhsize + (n + headsize out.length)⟩ := by
  have hget : (buf.list.1.lheads ++ lheads)[buf.list.2]? = some ⟨buf.str.length, buf.lhsize⟩ := by
    simp [list]
  have hout : buf.str.length + str.length + (buf.lhsize + n) - buf.str.length - buf.lhsize =
      out.length := by omega
  simp only [listEnd, hget, size, length_append, hout]
  simp [list, Nat.add_assoc]

mutual

theorem write_spec (t : Tree) (buf : EncBuffer) : ∃ str lheads n,
    write t buf = ⟨buf.str ++ str, buf.lheads ++ lheads, buf.lhsize + n⟩ ∧
    Segment buf.str str lheads n t.enc := by
  match t with
  | .bytes b =>
    refine ⟨encodeBytes b, [], 0, ?_, ?_⟩
    · simp [write, writeBytes]
    · exact segment_str _ _
  | .list items =>
    obtain ⟨str, lheads, n, hwrite, hseg⟩ := writeAll_spec items buf.list.1
    refine ⟨str, _, _, ?_, hseg.list⟩
    rw [write, hwrite]
    exact listEnd_eq buf hseg.size

theorem writeAll_spec (ts : List Tree) (buf : EncBuffer) : ∃ str lheads n,
    writeAll ts buf = ⟨buf.str ++ str, buf.lheads ++ lheads, buf.lhsize + n⟩ ∧
    Segment buf.str str lheads n (encAll ts) := by
  match ts with
  | [] =>
    refine ⟨[], [], 0, ?_, ?_⟩
    · simp [writeAll]
    · exact segment_str _ _
  | t :: ts =>
    obtain ⟨str, lheads, n, hwrite, hseg⟩ := write_spec t buf
    obtain ⟨str', lheads', n', hwrite', hseg'⟩ := writeAll_spec ts (write t buf)
    rw [hwrite] at hwrite' hseg'
    refine ⟨str ++ str', lheads ++ lheads', n + n', ?_, ?_⟩
    · rw [writeAll, hwrite, hwrite']
      simp only [append_assoc, Nat.add_assoc]
    · exact hseg.append hseg'

end

end EncBuffer

/-- The buffer holds the encoding, and says its size. -/
theorem copyTo_encodeTree (t : Tree) :
    (encodeTree t).copyTo = t.enc ∧ (encodeTree t).size = t.enc.length := by
  obtain ⟨str, lheads, n, hwrite, hseg⟩ := EncBuffer.write_spec t ⟨[], [], 0⟩
  have hcopy := hseg.copy [] [] (by simp)
  have hsize := hseg.size
  rw [encodeTree, hwrite]
  refine ⟨?_, ?_⟩
  · simpa [EncBuffer.copyTo, EncBuffer.copyLoop] using hcopy
  · simpa [EncBuffer.size] using hsize

/-! ### One encoding for each value -/

theorem decodeStream_iff {b : Bytes} (hb : b.length < 2 ^ 64) (limited : Bool) (t : Tree) :
    decodeStream limited b = .ok t ↔ t.enc = b := by
  constructor
  · intro h
    obtain ⟨⟨t, s⟩, hitem, h⟩ := bind_eq_ok.mp h
    dsimp only at h
    split at h
    · cases h
    rename_i hend
    cases h
    have hinput := congrArg input (item_inv hb hitem)
    rw [push_input, not_not.mp hend, append_nil] at hinput
    exact hinput.symm
  · rintro rfl
    have hread := item_push t _ le_rfl hb (fits_of_stack_nil (s := ⟨[], limited, []⟩) rfl _)
    rw [push_whole] at hread
    simp [decodeStream, hread]

theorem decodeSplit_iff {b : Bytes} (hb : b.length < 2 ^ 64) (t : Tree) :
    decodeSplit b = .ok t ↔ t.enc = b := by
  constructor
  · intro h
    obtain ⟨⟨t, rest⟩, hitem, h⟩ := bind_eq_ok.mp h
    dsimp only at h
    split at h
    · cases h
    · rename_i hend
      cases h
      rw [splitItem_inv hitem, not_not.mp hend, append_nil]
  · rintro rfl
    have hread := splitItem_append t _ le_rfl hb []
    rw [append_nil] at hread
    simp [decodeSplit, hread]

/-- **RLP is canonical.**  Both parsers accept the same inputs and return the same tree,
    and the one input they accept for a tree is what the encoder writes for it. -/
theorem rlp_canonical (b : Bytes) (hb : b.length < 2 ^ 63) (limited : Bool) (t : Tree) :
    (decodeStream limited b = .ok t ↔ decodeSplit b = .ok t) ∧
    (decodeSplit b = .ok t ↔ (encodeTree t).copyTo = b) ∧
    (encodeTree t).size = (encodeTree t).copyTo.length := by
  have hb : b.length < 2 ^ 64 := by omega
  obtain ⟨hcopy, hsize⟩ := copyTo_encodeTree t
  rw [decodeStream_iff hb, decodeSplit_iff hb, hcopy]
  exact ⟨Iff.rfl, Iff.rfl, hsize⟩

/-- A list of a byte, a string and an empty list. -/
theorem rlp_canonical_nested : decodeSplit [0xC6, 0x05, 0x83, 1, 2, 3, 0xC0] =
    .ok (.list [.bytes [5], .bytes [1, 2, 3], .list []]) :=
  (rlp_canonical _ (by decide) true _).2.1.mpr rfl

end GethArb.Rlp
