/-
  **Nodes as blobs.**  The abstract trie is a Patricia tree over nibbles.  `enc` is the
  blob of a tree, `load` the clean node a blob stands for, and decoding the one gives the
  other (`decodeNode_enc`).  A node whose blob has 32 bytes or more is *standalone*: its
  parent holds its hash.
-/
import GethArb.TrieNode

namespace GethArb.MPT

open Patricia List Rlp

/-! ### Key encodings -/

theorem last_eq : Fin.last 16 = (16 : Nibble) := rfl

theorem nibbles_pair (a b : Nibble) (ha : a ≠ 16) (hb : b ≠ 16) :
    nibbles (UInt8.ofNat (a.val <<< 4 ||| b.val)) = [a, b] := by
  revert a b
  decide +kernel

variable (t : Fin 2)

theorem nibbles_flag_even : nibbles (UInt8.ofNat (t.val <<< 5)) = [⟨2 * t.val, by omega⟩, 0] := by
  revert t
  decide

theorem nibbles_flag_odd (x : Nibble) (hx : x ≠ 16) :
    nibbles (UInt8.ofNat (t.val <<< 5 ||| 1 <<< 4 ||| x.val)) = [⟨2 * t.val + 1, by omega⟩, x] := by
  revert t x
  decide +kernel

theorem nibbles_head (b : UInt8) : ∃ x y : Nibble, nibbles b = [x, y] ∧ x.val = b.toNat / 16 :=
  ⟨_, _, rfl, rfl⟩

theorem flatMap_decodeNibbles (ns : Path) (hlast : (16 : Nibble) ∉ ns) (heven : ns.length % 2 = 0) :
    (decodeNibbles ns).flatMap nibbles = ns := by
  induction ns using decodeNibbles.induct with
  | case1 a b rest ih =>
    rw [mem_cons, mem_cons, not_or, not_or] at hlast
    simp only [length_cons] at heven
    rw [decodeNibbles, flatMap_cons, nibbles_pair a b (Ne.symm hlast.1) (Ne.symm hlast.2.1),
      ih hlast.2.2 (by omega)]
    rfl
  | case2 ns hshort =>
    rcases ns with _ | ⟨a, _ | ⟨b, rest⟩⟩
    · rfl
    · simp at heven
    · exact absurd rfl (hshort a b rest)

/-- The two halves of a compact key: the nibbles without the terminator, and the flag. -/
theorem compactToHex_compactNibbles (ns : Path) (hlast : (16 : Nibble) ∉ ns) :
    compactToHex (compactNibbles t.val ns) = if t.val = 1 then ns ++ [16] else ns := by
  -- dropping the terminator again when the flag asks for it
  have hread : ∀ (b : UInt8) (bs : Bytes) (x y : Nibble) (ms : Path),
      nibbles b = [x, y] → bs.flatMap nibbles = ms → x.val / 2 = t.val →
      compactToHex (b :: bs) =
        (if t.val = 1 then x :: y :: (ms ++ [16]) else x :: y :: ms).drop (2 - x.val % 2) := by
    intro b bs x y ms hb hbs hx
    have hflag : b.toNat / 16 = x.val := by
      rcases nibbles_head b with ⟨x', y', hb', hx'⟩
      rw [hb] at hb'
      simp only [cons.injEq] at hb'
      rw [hb'.1, hx']
    unfold compactToHex keybytesToHex
    simp only [flatMap_cons, hb, hbs, hflag, cons_append, nil_append]
    by_cases hone : t.val = 1
    · rw [if_neg (by omega), if_pos hone]
    · rw [if_pos (by omega), if_neg hone, ← cons_append, ← cons_append, dropLast_concat]
  unfold compactNibbles
  split
  · rename_i hodd
    cases ns with
    | nil => simp at hodd
    | cons x ns =>
      rw [mem_cons, not_or] at hlast
      simp only [length_cons] at hodd
      rw [hread _ _ _ _ ns (nibbles_flag_odd t x (Ne.symm hlast.1))
        (flatMap_decodeNibbles ns hlast.2 (by omega)) (by simp; omega)]
      simp only [Nat.mul_add_mod_self_left]
      split <;> rfl
  · rw [hread _ _ _ _ ns (nibbles_flag_even t) (flatMap_decodeNibbles ns hlast (by omega))
      (by simp)]
    simp only [Nat.mul_mod_right]
    split <;> rfl

@[simp] theorem hasTerm_concat (ns : Path) : hasTerm (ns ++ [16]) = true := by
  simp [hasTerm]

theorem hasTerm_of_notMem {ns : Path} (h : (16 : Nibble) ∉ ns) : hasTerm ns = false := by
  rw [hasTerm, decide_eq_false_iff_not]
  intro hlast
  exact h (mem_of_getLast? hlast)

variable {k key : Path}

theorem hasTerm_of_terminated (h : Terminated k) : hasTerm k = true := by
  rcases h with ⟨ns, rfl, -⟩
  exact hasTerm_concat ns

/-- Reading back a compact key: of a leaf … -/
theorem compactToHex_leaf (h : Terminated k) : compactToHex (hexToCompact k) = k := by
  rcases h with ⟨ns, rfl, hns⟩
  rw [last_eq, hexToCompact, if_pos (hasTerm_concat ns), dropLast_concat]
  exact compactToHex_compactNibbles 1 ns hns

/-- … and of an extension. -/
theorem compactToHex_ext (h : (16 : Nibble) ∉ k) : compactToHex (hexToCompact k) = k := by
  rw [hexToCompact, hasTerm_of_notMem h]
  exact compactToHex_compactNibbles 0 k h

theorem length_decodeNibbles_le (ns : Path) : (decodeNibbles ns).length ≤ ns.length / 2 := by
  induction ns using decodeNibbles.induct with
  | case1 a b rest ih =>
    simp only [decodeNibbles, length_cons]
    omega
  | case2 ns hshort =>
    rcases ns with _ | ⟨a, _ | ⟨b, rest⟩⟩
    · simp [decodeNibbles]
    · simp [decodeNibbles]
    · exact absurd rfl (hshort a b rest)

theorem length_compactNibbles_le (t : Nat) (k : Path) :
    (compactNibbles t k).length ≤ k.length / 2 + 1 := by
  unfold compactNibbles
  split
  · split
    · rename_i x hex _
      have := length_decodeNibbles_le hex
      simp only [length_cons]
      omega
    · simp
  · have := length_decodeNibbles_le k
    simp only [length_cons]
    omega

theorem length_hexToCompact_le (k : Path) : (hexToCompact k).length ≤ k.length / 2 + 1 := by
  unfold hexToCompact
  split
  · have := length_compactNibbles_le 1 k.dropLast
    have hdrop : k.dropLast.length ≤ k.length := by simp
    omega
  · exact length_compactNibbles_le 0 k

theorem notMem_nibbles (b : UInt8) : (16 : Nibble) ∉ nibbles b := by
  have := b.toNat_lt
  simp only [nibbles, mem_cons, not_mem_nil, or_false, not_or, Fin.ext_iff]
  constructor
  · exact fun h => by simp at h; omega
  · exact fun h => by simp at h; omega

theorem terminated_keybytesToHex (key : Bytes) : Terminated (keybytesToHex key) := by
  refine ⟨key.flatMap nibbles, rfl, ?_⟩
  rw [mem_flatMap]
  rintro ⟨b, -, hb⟩
  exact notMem_nibbles b hb

@[simp] theorem length_keybytesToHex (key : Bytes) :
    (keybytesToHex key).length = 2 * key.length + 1 := by
  have hlen : ∀ bs : Bytes, (bs.flatMap nibbles).length = 2 * bs.length := by
    intro bs
    induction bs with
    | nil => rfl
    | cons b bs ih =>
      rw [flatMap_cons, length_append]
      simp only [nibbles, length_cons, length_nil]
      omega
  rw [keybytesToHex, length_append, hlen]
  rfl

theorem nibbles_inj {b c : UInt8} (h : nibbles b = nibbles c) : b = c := by
  simp only [nibbles, cons.injEq, Fin.mk.injEq] at h
  rw [← UInt8.toNat_inj]
  omega

theorem keybytesToHex_inj {key key' : Bytes} : keybytesToHex key = keybytesToHex key' ↔
    key = key' := by
  refine ⟨fun h => ?_, congrArg _⟩
  have h := append_cancel_right h
  induction key generalizing key' with
  | nil =>
    cases key' with
    | nil => rfl
    | cons b key' => simp [nibbles] at h
  | cons b key ih =>
    cases key' with
    | nil => simp [nibbles] at h
    | cons c key' =>
      rw [flatMap_cons, flatMap_cons] at h
      rcases append_inj h rfl with ⟨hb, hrest⟩
      rw [nibbles_inj hb, ih _ hrest]
      rw [keybytesToHex, keybytesToHex, hrest]

/-! ### Abstract tries -/

/-- Values are the non-empty byte slices. -/
abbrev Value := {b : Bytes // b ≠ [] ∧ b.length < 2 ^ 63}

abbrev Tree := Patricia 16 Value

/-- Values and nothing are never standalone. -/
def isPlain : Tree → Bool
  | .nil => true
  | .value _ => true
  | _ => false

variable {t child : Tree}

theorem isPlain_iff : isPlain t = true ↔ IsValue t := by
  cases t <;> simp [isPlain, IsValue]

theorem Shaped.isPlain (h : Shaped t) (hne : t ≠ .nil) : isPlain t = false := by
  cases h with
  | empty => exact absurd rfl hne
  | leaf v hkey | ext _ _ _ _ | branch _ _ => rfl

theorem Canonical.isPlain (h : Canonical t) : isPlain t = false :=
  Shaped.isPlain h.shaped h.ne_nil

/-! ### Sizes -/

variable (h : Hash)

@[simp] theorem length_hashBytes : (hashBytes h).length = 32 :=
  length_bytesBE _ _

theorem bytesToHash_hashBytes : bytesToHash (hashBytes h) = h := by
  rw [bytesToHash, hashBytes, ofBytesBE_bytesBE]
  apply BitVec.eq_of_toNat_eq
  rw [BitVec.toNat_ofNat]
  omega

/-- Every key of the tree is short enough for a slice. -/
def Bounded (t : Tree) : Prop := ∀ k v, t.lookup k = some v → k.length < 2 ^ 63

theorem Bounded.of_short (h : Bounded (.short key child)) : Bounded child := by
  intro k v hk
  have := h (key ++ k) v (lookup_short_eq_some.mpr ⟨k, rfl, hk⟩)
  rw [length_append] at this
  omega

variable {children : Nibble → Tree}

theorem Bounded.of_full (h : Bounded (.full children)) (a : Nibble) : Bounded (children a) := by
  intro k v hk
  have := h (a :: k) v hk
  rw [length_cons] at this
  omega

theorem Bounded.key_lt (h : Bounded (.short key child)) (hc : Canonical (.short key child)) :
    key.length < 2 ^ 63 := by
  rcases hc.exists_key with ⟨k, v, hk⟩
  rcases lookup_short_eq_some.mp hk with ⟨r, rfl, -⟩
  have := h _ v hk
  rw [length_append] at this
  omega

/-- The path of every short node is short enough for a slice. -/
def Sized : Tree → Prop
  | .short key child => key.length < 2 ^ 63 ∧ Sized child
  | .full children => ∀ a, Sized (children a)
  | _ => True

theorem Bounded.sized (hb : Bounded t) (h : IsValue t ∨ Canonical t) : Sized t := by
  induction t with
  | nil | value v => trivial
  | short key child ih =>
    have hc := h.resolve_left (not_isValue_short key child)
    exact ⟨hb.key_lt hc, ih hb.of_short hc.of_short.2⟩
  | full children ih =>
    have hc := h.resolve_left (not_isValue_full children)
    exact fun a => ih a (hb.of_full a) (hc.of_full a)

theorem length_encodeBytes_le {b : Bytes} (h : b.length < 2 ^ 64) :
    (encodeBytes b).length ≤ b.length + 9 := by
  have hhead : (puthead 0x80 0xB7 b.length).length ≤ 9 := by
    unfold puthead
    split
    · simp
    · have := intsize_le_eight h
      rw [length_cons, length_putint]
      omega
  unfold encodeBytes
  split
  · split
    · simp
    · simp [puthead]
  · rw [length_append]
    omega

theorem length_value_lt (v : Value) : v.val.length < 2 ^ 64 :=
  v.prop.2.trans (by norm_num)

theorem length_compact_lt (h : Sized (.short key child)) : (hexToCompact key).length ≤ 2 ^ 62 := by
  have := length_hexToCompact_le key
  have := h.1
  omega

theorem hash_item : Item (encodeBytes (hashBytes h)) .string (hashBytes h) := by
  have hitem := item_encodeBytes (b := hashBytes h) (by simp)
  have hkind : bytesKind (hashBytes h) = .string := by
    have hlen := length_hashBytes h
    unfold bytesKind
    split
    · rename_i x heq
      rw [heq] at hlen
      cases hlen
    · rfl
  rwa [hkind] at hitem

theorem castSucc_ne (j : Fin 16) : j.castSucc ≠ (16 : Nibble) := by
  intro h
  have := congrArg Fin.val h
  simp at *
  omega

theorem branch_child (h : Canonical (.full children)) {a : Nibble} (ha : a ≠ 16) :
    CanonicalRoot (children a) := by
  cases h with
  | branch hchild _ _ =>
    by_cases hnil : children a = .nil
    · exact .inl hnil
    · exact .inr (hchild a ha hnil)

theorem branch_value (h : Canonical (.full children)) : IsValue (children 16) := by
  cases h with
  | branch _ hlast _ => exact hlast

/-! ### Blobs -/

variable {i : Nibble}

section
variable [Crypto]

/-- What a parent holds of a child with blob `e`. -/
def sealed (plain : Bool) (e : Bytes) : Bytes :=
  if plain = false ∧ 32 ≤ e.length then hashBytes (keccak256 e) else e

def shortEncode (key : Path) (ref : Bytes) : Bytes :=
  if hasTerm key then leafEncode (hexToCompact key) ref else extEncode (hexToCompact key) ref

/-- The blob of a tree. -/
def enc : Tree → Bytes
  | .nil => []
  | .value v => v.val
  | .short key child => shortEncode key (sealed (isPlain child) (enc child))
  | .full children => fullEncode fun i => sealed (isPlain (children i)) (enc (children i))

/-- Trees that are nodes of their own in the database (the root aside). -/
def standalone (t : Tree) : Bool := !isPlain t && 32 ≤ (enc t).length

variable {t : Tree}

theorem standalone_iff : standalone t = true ↔ isPlain t = false ∧ 32 ≤ (enc t).length := by
  simp [standalone]

def ref (t : Tree) : Bytes := sealed (isPlain t) (enc t)

theorem ref_of_standalone (h : standalone t = true) : ref t = hashBytes (keccak256 (enc t)) :=
  if_pos (standalone_iff.mp h)

theorem ref_of_embedded (h : standalone t = false) : ref t = enc t := by
  refine if_neg fun h' => ?_
  rw [standalone_iff.mpr h'] at h
  cases h

theorem enc_short (key : Path) (child : Tree) :
    enc (.short key child) = shortEncode key (ref child) := rfl

theorem enc_full (children : Nibble → Tree) :
    enc (.full children) = fullEncode fun i => ref (children i) := rfl

/-- The clean node a blob with hash `h` stands for. -/
def load : Tree → Option Hash → Node
  | .nil, _ => .nil
  | .value v, _ => .value v.val
  | .short key child, h =>
    .short key (if standalone child then .hash (keccak256 (enc child)) else load child none)
      ⟨h, false⟩
  | .full children, h =>
    .full (fun i => if standalone (children i) then .hash (keccak256 (enc (children i)))
      else load (children i) none) ⟨h, false⟩

/-- The node a reference to `t` stands for. -/
def refNode (t : Tree) : Node :=
  if standalone t then .hash (keccak256 (enc t)) else load t none

theorem load_full (children : Nibble → Tree) (h : Option Hash) :
    load (.full children) h = .full (fun i => refNode (children i)) ⟨h, false⟩ := rfl

/-- A reference to a node is a hash or shorter. -/
theorem length_ref_le (h : isPlain t = false) : (ref t).length ≤ 32 := by
  by_cases hs : standalone t = true
  · rw [ref_of_standalone hs, length_hashBytes]
  · rw [Bool.not_eq_true] at hs
    rw [ref_of_embedded hs]
    simp only [standalone, h, Bool.not_false, Bool.true_and, decide_eq_false_iff_not] at hs
    omega

/-- What a full node writes for its child `i`, and an extension below its key. -/
def written (i : Nibble) (t : Tree) : Bytes := childEncode i (ref t)

theorem written_nil (i : Nibble) : written i .nil = emptyString := rfl

theorem written_value (v : Value) : written 16 (.value v) = encodeBytes v.val := by
  have hne : (ref (.value v)).length ≠ 0 := fun h => v.prop.1 (length_eq_zero_iff.mp h)
  rw [written, childEncode, if_neg hne]
  rfl

theorem written_standalone (i : Nibble) (h : standalone t = true) :
    written i t = encodeBytes (hashBytes (keccak256 (enc t))) := by
  rw [written, ref_of_standalone h, childEncode, if_neg (by simp), if_pos (.inr (by simp))]

theorem written_embedded (hi : i ≠ 16) (hne : enc t ≠ []) (hplain : isPlain t = false)
    (h : standalone t = false) : written i t = enc t := by
  have hlen : ¬ 32 ≤ (enc t).length := by
    simpa [standalone, hplain] using h
  rw [written, ref_of_embedded h, childEncode, if_neg (by simpa using hne), if_neg (by tauto)]

theorem extEncode_ref (key : Bytes) (t : Tree) :
    extEncode key (ref t) = encodeList (encodeBytes key ++ written 0 t) := by
  unfold extEncode written childEncode
  by_cases hnil : ref t = []
  · rw [if_pos hnil, if_pos (by simp [hnil])]
  have hzero : ¬ (ref t).length = 0 := by simpa using hnil
  rw [if_neg hnil, if_neg hzero]
  by_cases hlen : (ref t).length < 32
  · rw [if_pos hlen, if_neg]
    rintro (h | h)
    · cases h
    · omega
  · rw [if_neg hlen, if_pos (.inr (by omega))]

/-- The values of a node's blob, one after the other. -/
def items : Tree → List Bytes
  | .short key (.value v) => [encodeBytes (hexToCompact key), encodeBytes v.val]
  | .short key child => [encodeBytes (hexToCompact key), written 0 child]
  | .full children => (finRange (16 + 1)).map fun i => written i (children i)
  | _ => []

theorem items_ext (key : Path) (h : Shaped child) :
    items (.short key child) = [encodeBytes (hexToCompact key), written 0 child] := by
  cases h <;> rfl

theorem enc_eq_encodeList (h : Shaped t) (hne : t ≠ .nil) :
    enc t = encodeList (items t).flatten := by
  cases h with
  | empty => exact absurd rfl hne
  | leaf v hkey =>
    rw [enc_short, shortEncode, if_pos (hasTerm_of_terminated hkey)]
    simp only [items, flatten_cons, flatten_nil, append_nil]
    rfl
  | ext _ hlast hchild _ =>
    rw [enc_short, shortEncode, hasTerm_of_notMem hlast, extEncode_ref, items_ext _ hchild]
    simp
  | branch _ _ => rfl

theorem Shaped.enc_ne_nil (h : Shaped t) (hne : t ≠ .nil) : enc t ≠ [] := by
  rw [enc_eq_encodeList h hne, encodeList, puthead]
  split <;> simp

theorem enc_ne_nil (h : Canonical t) : enc t ≠ [] := Shaped.enc_ne_nil h.shaped h.ne_nil

theorem length_written_le (hi : i ≠ 16) (ht : Shaped t) : (written i t).length ≤ 41 := by
  by_cases hne : t = .nil
  · simp [hne, written_nil, emptyString]
  by_cases hs : standalone t = true
  · rw [written_standalone i hs]
    refine (length_encodeBytes_le ?_).trans ?_
    all_goals simp
  · rw [Bool.not_eq_true] at hs
    have hplain := Shaped.isPlain ht hne
    rw [written_embedded hi (Shaped.enc_ne_nil ht hne) hplain hs, ← ref_of_embedded hs]
    exact (length_ref_le hplain).trans (by norm_num)

/-- The values of a full node: sixteen references and the value. -/
theorem items_full (children : Nibble → Tree) :
    items (.full children) =
      ((finRange 16).map fun j => written j.castSucc (children j.castSucc)) ++
        [written 16 (children 16)] := by
  rw [finRange_succ_last]
  rfl

theorem length_written_value (h : IsValue t) : (written 16 t).length < 2 ^ 63 + 9 := by
  rcases h with rfl | ⟨v, rfl⟩
  · simp [written_nil, emptyString]
  · rw [written_value]
    have := length_encodeBytes_le (length_value_lt v)
    omega

/-- A blob is short enough for its header. -/
theorem length_items_lt (h : Shaped t) (hb : Sized t) : (items t).flatten.length < 2 ^ 64 := by
  have hkey : ∀ {key : Path} {child : Tree}, Sized (.short key child) →
      (encodeBytes (hexToCompact key)).length ≤ 2 ^ 62 + 9 := by
    intro key child hb
    have hle := length_compact_lt hb
    have := length_encodeBytes_le (b := hexToCompact key) (by omega)
    omega
  cases h with
  | empty => simp [items]
  | leaf v hterm =>
    have := hkey hb
    have := length_encodeBytes_le (length_value_lt v)
    simp only [items, flatten_cons, flatten_nil, append_nil, length_append]
    omega
  | ext hne hlast hchild _ =>
    have := hkey hb
    have := length_written_le (i := 0) (by decide) hchild
    simp only [items_ext _ hchild, flatten_cons, flatten_nil, append_nil, length_append]
    omega
  | @branch children hchild hlast =>
    have hvalue := length_written_value hlast
    have hrefs : ((finRange 16).map fun j =>
        written j.castSucc (children j.castSucc)).flatten.length ≤ 16 * 41 := by
      rw [length_flatten, map_map]
      refine (sum_le_card_nsmul _ 41 ?_).trans (by simp)
      intro n hn
      rcases mem_map.mp hn with ⟨j, -, rfl⟩
      exact length_written_le (castSucc_ne j) (hchild _ (castSucc_ne j))
    rw [items_full, flatten_append, length_append]
    simp only [flatten_cons, flatten_nil, append_nil]
    change (written 16 (children 16)).length < _ at hvalue
    omega

theorem enc_item (h : Shaped t) (hne : t ≠ .nil) (hb : Sized t) :
    Item (enc t) .list (items t).flatten := by
  rw [enc_eq_encodeList h hne]
  exact item_encodeList (length_items_lt h hb)

/-- A written reference is one value. -/
theorem written_item (hi : i ≠ 16) (h : Shaped t) (hb : Sized t) :
    ∃ k content, Item (written i t) k content := by
  by_cases hne : t = .nil
  · rw [hne]
    exact ⟨_, _, item_emptyString⟩
  by_cases hs : standalone t = true
  · rw [written_standalone i hs]
    exact ⟨_, _, hash_item _⟩
  · rw [Bool.not_eq_true] at hs
    rw [written_embedded hi (Shaped.enc_ne_nil h hne) (Shaped.isPlain h hne) hs]
    exact ⟨_, _, enc_item h hne hb⟩

theorem written_value_item (h : IsValue t) :
    ∃ k content, k ≠ .list ∧ Item (written 16 t) k content ∧
      refNode t = if content.length > 0 then .value content else .nil := by
  rcases h with rfl | ⟨v, rfl⟩
  · exact ⟨.string, [], by simp, item_emptyString, rfl⟩
  refine ⟨bytesKind v.val, v.val, bytesKind_ne_list _, ?_, ?_⟩
  · rw [written_value]
    exact item_encodeBytes (length_value_lt v)
  · rw [if_pos (length_pos_iff.mpr v.prop.1)]
    rfl

theorem items_item (h : Shaped t) (hb : Sized t) :
    ∀ b ∈ items t, ∃ k content, Item b k content := by
  have hkey : ∀ {key : Path} {child : Tree}, Sized (.short key child) →
      ∃ k content, Item (encodeBytes (hexToCompact key)) k content := by
    intro key child hb
    have := length_compact_lt hb
    exact ⟨_, _, item_encodeBytes (by omega)⟩
  cases h with
  | empty => simp [items]
  | leaf v hterm =>
    simp only [items, mem_cons, not_mem_nil, or_false, forall_eq_or_imp, forall_eq]
    exact ⟨hkey hb, _, _, item_encodeBytes (length_value_lt v)⟩
  | ext hne hlast hchild _ =>
    simp only [items_ext _ hchild, mem_cons, not_mem_nil, or_false, forall_eq_or_imp, forall_eq]
    exact ⟨hkey hb, written_item (by decide) hchild hb.2⟩
  | @branch children hchild hlast =>
    intro b hmem
    rcases mem_map.mp hmem with ⟨i, -, rfl⟩
    by_cases hi : i = 16
    · subst hi
      rcases written_value_item hlast with ⟨k, content, -, hitem, -⟩
      exact ⟨k, content, hitem⟩
    · exact written_item hi (hchild i hi) (hb i)

theorem count_items (h : Shaped t) (hb : Sized t) :
    countValues (items t).flatten = .ok (items t).length :=
  countLoop_flatten _ (items_item h hb) _ le_rfl

/-! ### Reading blobs back -/

variable {dec : Bytes → Except NodeError Node}

/-- Reading a reference, once the embedded nodes are read. -/
theorem decodeRef_written (hi : i ≠ 16) (h : Shaped t) (hb : Sized t)
    (hdec : t ≠ .nil → standalone t = false → ∀ rest, dec (enc t ++ rest) = .ok (load t none))
    (rest : Bytes) : decodeRef dec (written i t ++ rest) = .ok (refNode t, rest) := by
  unfold decodeRef
  by_cases hne : t = .nil
  · rw [hne, written_nil, item_emptyString.split]
    rfl
  by_cases hs : standalone t = true
  · rw [written_standalone i hs, (hash_item _).split]
    simp [fromRlp, bind, Except.bind, bytesToHash_hashBytes, refNode, hs]
  rw [Bool.not_eq_true] at hs
  have hplain := Shaped.isPlain h hne
  have hlen : (enc t).length < 32 := by simpa [standalone, hplain] using hs
  rw [written_embedded hi (Shaped.enc_ne_nil h hne) hplain hs, (enc_item h hne hb).split]
  simp only [fromRlp, bind, Except.bind, if_true, length_append]
  rw [if_neg (by omega), hdec hne hs]
  simp [refNode, hs]

/-- Reading the references of a full node. -/
theorem decodeChildren_written (js : List (Fin 16))
    (hread : ∀ j ∈ js, ∀ rest, decodeRef dec (written j.castSucc (children j.castSucc) ++ rest) =
      .ok (refNode (children j.castSucc), rest))
    (i : Nat) (rest : Bytes) :
    decodeChildren dec i js.length
        ((js.map fun j => written j.castSucc (children j.castSucc)).flatten ++ rest) =
      .ok (js.map fun j => refNode (children j.castSucc), rest) := by
  induction js generalizing i with
  | nil => rfl
  | cons j js ih =>
    have htail := ih (fun j hj => hread j (mem_cons_of_mem _ hj)) (i + 1)
    simp only [map_cons, flatten_cons, append_assoc, length_cons, decodeChildren]
    rw [hread j mem_cons_self]
    simp only [wrapError, bind, Except.bind]
    rw [htail]

theorem load_children (children : Nibble → Tree) :
    (fun i : Nibble => if i = 16 then refNode (children 16)
      else ((finRange 16).map fun j => refNode (children j.castSucc)).getD i .nil) =
    fun i => refNode (children i) := by
  funext i
  by_cases hi : i = 16
  · rw [if_pos hi, hi]
  have hlt : i.val < 16 := by
    have : i.val ≠ 16 := fun h => hi (Fin.ext h)
    omega
  rw [if_neg hi]
  simp [hlt]

/-- One pass of the loop.  Embedded nodes are shorter, so one pass less reads them. -/
theorem decodeLoop_pass (h : Shaped t) (hne : t ≠ .nil) (hb : Sized t) {fuel : Nat}
    (hfuel : (enc t).length ≤ fuel) :
    ∃ n, fuel = n + 1 ∧ (items t).flatten.length ≤ n ∧
      ∀ hash rest, decodeLoop fuel hash (enc t ++ rest) =
        match (items t).length with
        | 2 => wrapError "short" (decodeShort (decodeLoop n none) hash (items t).flatten)
        | 17 => wrapError "full" (decodeFull (decodeLoop n none) hash (items t).flatten)
        | c => .error (.elements c) := by
  have hpos : (items t).flatten.length < (enc t).length := by
    rw [enc_eq_encodeList h hne, encodeList, puthead]
    split <;> simp
  refine ⟨fuel - 1, by omega, by omega, fun hash rest => ?_⟩
  obtain ⟨n, rfl⟩ : ∃ n, fuel = n + 1 := ⟨fuel - 1, by omega⟩
  rw [decodeLoop, if_neg (by rw [length_append]; omega), (enc_item h hne hb).splitList]
  simp only [fromRlp, bind, Except.bind, count_items h hb]
  rfl

/-- The blob of a tree decodes to the clean node it stands for, whatever follows it. -/
theorem decodeLoop_enc (h : Shaped t) (hne : t ≠ .nil) (hb : Sized t) {fuel : Nat}
    (hfuel : (enc t).length ≤ fuel) (hash : Option Hash) (rest : Bytes) :
    decodeLoop fuel hash (enc t ++ rest) = .ok (load t hash) := by
  induction h generalizing fuel hash rest with
  | empty => exact absurd rfl hne
  | @leaf key v hterm =>
    rcases decodeLoop_pass (.leaf v hterm) hne hb hfuel with ⟨n, -, -, hstep⟩
    have hkey := length_compact_lt hb
    have hread := (item_encodeBytes (b := hexToCompact key) (by omega)).splitString
      (bytesKind_ne_list _) (encodeBytes v.val ++ [])
    have hval := (item_encodeBytes (length_value_lt v)).splitString (bytesKind_ne_list _) []
    rw [hstep]
    simp only [items, flatten_cons, flatten_nil, decodeShort, hread, hval, fromRlp, bind,
      Except.bind, compactToHex_leaf hterm, hasTerm_of_terminated hterm]
    rfl
  | @ext key child hkne hlast hchild hcne ih =>
    rcases decodeLoop_pass (.ext hkne hlast hchild hcne) hne hb hfuel with ⟨n, -, hn, hstep⟩
    have hkey := length_compact_lt hb
    have hread := (item_encodeBytes (b := hexToCompact key) (by omega)).splitString
      (bytesKind_ne_list _) (written 0 child ++ [])
    have href : decodeRef (decodeLoop n none) (written 0 child ++ []) =
      .ok (refNode child, []) := by
      refine decodeRef_written (by decide) hchild hb.2 (fun _ hs rest => ?_) []
      refine ih hcne hb.2 ?_ none rest
      simp only [items_ext _ hchild, flatten_cons, length_append] at hn
      rw [written_embedded (by decide) (Shaped.enc_ne_nil hchild hcne) (Shaped.isPlain hchild hcne)
        hs] at hn
      omega
    rw [hstep]
    simp only [items_ext _ hchild, flatten_cons, flatten_nil, decodeShort, hread, href, fromRlp,
      bind, Except.bind, compactToHex_ext hlast, hasTerm_of_notMem hlast]
    rfl
  | @branch children hchild hlast ih =>
    rcases decodeLoop_pass (.branch hchild hlast) hne hb hfuel with ⟨n, -, hn, hstep⟩
    rcases written_value_item hlast with ⟨k, content, hk, hitem, hval⟩
    have href : ∀ j ∈ finRange 16, ∀ rest,
        decodeRef (decodeLoop n none) (written j.castSucc (children j.castSucc) ++ rest) =
          .ok (refNode (children j.castSucc), rest) := by
      intro j _
      have hj := hchild _ (castSucc_ne j)
      refine decodeRef_written (castSucc_ne j) hj (hb _) ?_
      intro hcne hs rest
      refine ih _ (castSucc_ne j) hcne (hb _) ?_ none rest
      have hmem : written j.castSucc (children j.castSucc) ∈ items (.full children) :=
        mem_map.mpr ⟨_, mem_finRange _, rfl⟩
      have hle := Sublist.length_le (sublist_flatten_of_mem hmem)
      rw [written_embedded (castSucc_ne j) (Shaped.enc_ne_nil hj hcne) (Shaped.isPlain hj hcne)
        hs] at hle
      omega
    have hchildren := decodeChildren_written (finRange 16) href 0 (written 16 (children 16))
    have hsplit := hitem.splitString hk []
    rw [hstep]
    rw [items_full, flatten_append]
    simp only [length_finRange] at hchildren
    simp only [flatten_cons, flatten_nil, append_nil, decodeFull, hchildren, bind, Except.bind]
      at hsplit ⊢
    change splitString (written 16 (children 16)) = _ at hsplit
    rw [hsplit, load_full, ← load_children]
    simp only [fromRlp, ← hval]
    rfl

theorem Shaped.decodeNode_enc (h : Shaped t) (hne : t ≠ .nil) (hb : Sized t) (hash : Option Hash) :
    decodeNode hash (enc t) = .ok (load t hash) := by
  have := decodeLoop_enc h hne hb (Nat.le_succ _) hash []
  rwa [append_nil] at this

theorem decodeNode_enc (h : Canonical t) (hb : Bounded t) (hash : Option Hash) :
    decodeNode hash (enc t) = .ok (load t hash) :=
  Shaped.decodeNode_enc h.shaped h.ne_nil (hb.sized (.inr h)) hash

end

end GethArb.MPT
