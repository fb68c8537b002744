/-
  **The stack trie builds the trie.**  A node of a stack trie stands for an abstract trie
  (`StRep`), of which the parts below its hashed nodes have been reported (`Sent`).  An
  insertion to the right of the last key (`Rightmost`) gives the trie with the key inserted
  and reports what it hashes; the last `Hash` reports what is left.  In the end the reported
  nodes are those of the trie, and they are what `Commit` of a fresh trie writes.
-/
import GethArb.StackTrie
import GethArb.TrieExact

namespace GethArb.MPT

open Patricia Function StNode Finmap
open List hiding attach

/-! ### The compact form in place -/

@[simp] theorem length_pathBytes (p : Path) : (pathBytes p).length = p.length := by
  rw [pathBytes, length_map]

theorem toNat_nibble (a : Nibble) : (UInt8.ofNat a.val).toNat = a.val :=
  Rlp.toNat_ofNat_of_lt (by omega)

variable {a : Nibble}

theorem nibble_byte_eq : UInt8.ofNat a.val = 16 ↔ a = 16 := by
  revert a
  decide

/-- The pairs of nibbles that are still ahead of the loop are not touched by it, since it
    writes behind the place it reads from. -/
theorem compactLoop_spec {hexLen fuel : Nat} {ns : Path} {buf tail : Bytes} {ni bi : Nat}
    (hbuf : buf.drop ni = pathBytes ns ++ tail) (heven : ns.length % 2 = 0)
    (hlen : hexLen = ni + ns.length) (hbi : bi < ni + 2) (hin : bi ≤ buf.length)
    (hfuel : ns.length ≤ fuel) :
    (compactLoop hexLen fuel buf ni bi).take (bi + ns.length / 2) =
      buf.take bi ++ decodeNibbles ns := by
  induction fuel generalizing ns buf ni bi with
  | zero =>
    have hns : ns = [] := length_eq_zero_iff.mp (by omega)
    subst hns
    simp [compactLoop, decodeNibbles]
  | succ fuel ih =>
    rcases ns with _ | ⟨a, _ | ⟨b, ns⟩⟩
    · rw [compactLoop, if_neg (by simp [hlen])]
      simp [decodeNibbles]
    · simp at heven
    · have hget : ∀ j, buf.getD (ni + j) 0 = (pathBytes (a :: b :: ns) ++ tail).getD j 0 := by
        intro j
        rw [← hbuf, getD_eq_getElem?_getD, getD_eq_getElem?_getD, getElem?_drop]
      have hlt : bi < buf.length := by
        have hl := congrArg length hbuf
        simp only [length_drop, length_append, length_pathBytes, length_cons] at hl
        omega
      simp only [length_cons] at heven hlen hfuel
      rw [compactLoop, if_pos (by omega), ← Nat.add_zero ni, hget, Nat.add_zero, hget]
      have hdrop : (buf.set bi (UInt8.ofNat (a.val <<< 4 ||| b.val))).drop (ni + 2) =
          pathBytes ns ++ tail := by
        rw [drop_set_of_lt hbi, ← drop_drop, hbuf]
        rfl
      have hin' : bi + 1 ≤ (buf.set bi (UInt8.ofNat (a.val <<< 4 ||| b.val))).length := by
        rw [length_set]
        exact hlt
      have hrest := ih hdrop (by omega) (by omega) (by omega) hin' (by omega)
      have hhalf : bi + (a :: b :: ns).length / 2 = bi + 1 + ns.length / 2 := by
        simp only [length_cons]
        omega
      have htake : (buf.set bi (UInt8.ofNat (a.val <<< 4 ||| b.val))).take (bi + 1) =
          buf.take bi ++ [UInt8.ofNat (a.val <<< 4 ||| b.val)] := by
        rw [take_add_one, take_set, getElem?_set_self hlt,
          set_eq_of_length_le (by rw [length_take]; omega)]
        rfl
      rw [hhalf]
      rw [htake, append_assoc] at hrest
      simp only [pathBytes, map_cons, cons_append, getD_cons_zero, getD_cons_succ, toNat_nibble]
      exact hrest

theorem getLast_pathBytes (p : Path) : (pathBytes p).getLast? = some 16 ↔ hasTerm p = true := by
  rw [pathBytes, getLast?_map, hasTerm, decide_eq_true_eq, Option.map_eq_some_iff]
  constructor
  · rintro ⟨a, ha, hb⟩
    rw [ha, nibble_byte_eq.mp hb]
  · intro h
    exact ⟨16, h, rfl⟩

/-- The first byte and what the loop writes. -/
theorem compact_buffer (t : Nat) (ns : Path) (tail : Bytes) (hne : ns ≠ [] ∨ tail ≠ []) :
    ((compactLoop ns.length ns.length (pathBytes ns ++ tail)
      (if ns.length % 2 = 1 then 1 else 0) 1).set 0 (UInt8.ofNat (t <<< 5 |||
        (if ns.length % 2 = 1 then 1 <<< 4 ||| ((pathBytes ns ++ tail).getD 0 0).toNat
          else 0)))).take (ns.length / 2 + 1) = compactNibbles t ns := by
  have hlen : 1 ≤ (pathBytes ns ++ tail).length := by
    rw [length_append, length_pathBytes, Nat.one_le_iff_ne_zero, ne_eq, Nat.add_eq_zero_iff,
      length_eq_zero_iff, length_eq_zero_iff]
    tauto
  have hfirst : ∀ x : UInt8, ((pathBytes ns ++ tail).take 1).set 0 x = [x] := by
    intro x
    rcases exists_cons_of_length_pos hlen with ⟨y, ys, hy⟩
    rw [hy]
    rfl
  unfold compactNibbles
  by_cases hodd : ns.length % 2 = 1
  · cases ns with
    | nil => cases hodd
    | cons x ns =>
      rw [length_cons] at hodd
      have hdrop : (pathBytes (x :: ns) ++ tail).drop 1 = pathBytes ns ++ tail := rfl
      have hloop := compactLoop_spec hdrop (by omega) (Nat.add_comm _ 1 : (x :: ns).length = _)
        (by omega : 1 < 1 + 2) hlen (Nat.le_succ _ : ns.length ≤ (x :: ns).length)
      have hhalf : (x :: ns).length / 2 + 1 = 1 + ns.length / 2 := by
        rw [length_cons]
        omega
      rw [hhalf, take_set]
      simp only [length_cons, hodd, if_true] at hloop ⊢
      rw [hloop]
      simp only [pathBytes, map_cons, cons_append, getD_cons_zero, toNat_nibble, Nat.or_assoc]
      rfl
  · have hdrop : (pathBytes ns ++ tail).drop 0 = pathBytes ns ++ tail := rfl
    have hloop := compactLoop_spec hdrop (by omega) (Nat.zero_add _).symm (by omega : 1 < 0 + 2)
      hlen le_rfl
    rw [Nat.add_comm, take_set]
    simp only [hodd, if_false, Nat.or_zero] at hloop ⊢
    rw [hloop, set_append_left _ _ (by rw [length_take]; omega), hfirst]
    rfl

/-- The loop in place gives the compact form. -/
theorem hexToCompactInPlace_eq {k : Path} (hne : k ≠ []) :
    hexToCompactInPlace (pathBytes k) = some (hexToCompact k) := by
  have hbytes : pathBytes k ≠ [] := by
    rw [pathBytes, ne_eq, map_eq_nil_iff]
    exact hne
  rw [hexToCompactInPlace, if_neg hbytes, hexToCompact]
  simp only [getLast_pathBytes, length_pathBytes]
  by_cases hterm : hasTerm k = true
  · have hlast : k.dropLast ++ [16] = k := by
      rw [hasTerm, decide_eq_true_eq] at hterm
      exact dropLast_append_getLast? 16 hterm
    have hk : pathBytes k = pathBytes k.dropLast ++ [16] := by
      conv_lhs => rw [← hlast]
      rw [pathBytes, map_append]
      rfl
    have hlen : k.length - 1 = k.dropLast.length := length_dropLast.symm
    simp only [hterm, if_true, hlen, hk]
    rw [← compact_buffer 1 k.dropLast [16] (.inr (by simp))]
  · simp only [hterm]
    rw [← compact_buffer 0 k [] (.inl hne), append_nil]
    rfl

/-! ### What a node stands for -/

variable {st : StackTrie}

section
variable [Crypto]

/-- The tree of a node.  Below a hashed node it is known by its reference. -/
def StRep : StNode → Tree → Prop
  | .nil, t => t = .nil
  | .empty, _ => False
  | .branch children, t => ∃ ts, t = .full ts ∧ children 16 = .nil ∧ ∀ i, StRep (children i) (ts i)
  | .ext key child, t => ∃ c, t = .short key c ∧ key ≠ [] ∧ (16 : Nibble) ∉ key ∧
      isPlain c = false ∧ StRep child c
  | .leaf key val, t => ∃ v : Value, val = v.val ∧ (16 : Nibble) ∉ key ∧
      t = .short (key ++ [16]) (.value v)
  | .hashed val, t => val = ref t ∧ isPlain t = false

/-- A node of the tree at `path` that is reported, with its hash and blob. -/
def Reported (t : Tree) (path : Path) (e : Emission) : Prop :=
  ∃ q u, t.sub q = some u ∧ isPlain u = false ∧ (path ++ q = [] ∨ 32 ≤ (enc u).length) ∧
    e = ⟨path ++ q, keccak256 (enc u), enc u⟩

/-- What has been reported of a node at `path`: all that is below a hashed node. -/
def Sent : StNode → Tree → Path → Emission → Prop
  | .hashed _, t, path, e => Reported t path e
  | .ext key child, t, path, e => ∃ c, t = .short key c ∧ Sent child c (path ++ key) e
  | .branch children, t, path, e =>
    ∃ ts, t = .full ts ∧ ∃ i, Sent (children i) (ts i) (path ++ [i]) e
  | _, _, _, _ => False

variable {n : StNode} {t : Tree}

theorem StRep.isNil (h : StRep n t) : n.isNil = isPlain t := by
  cases n with
  | nil =>
    rw [show t = .nil from h]
    rfl
  | empty => exact h.elim
  | branch children =>
    rcases h with ⟨ts, rfl, -⟩
    rfl
  | ext key child =>
    rcases h with ⟨c, rfl, -⟩
    rfl
  | leaf key val =>
    rcases h with ⟨v, -, -, rfl⟩
    rfl
  | hashed val => exact h.2.symm

omit [Crypto] in
theorem StNode.isNil_iff : n.isNil = true ↔ n = .nil := by
  cases n <;> simp [isNil]

/-- The root of a tree. -/
def Here (t : Tree) (path : Path) (e : Emission) : Prop :=
  (path = [] ∨ 32 ≤ (enc t).length) ∧ e = ⟨path, keccak256 (enc t), enc t⟩

theorem reported_plain (h : IsValue t) (path : Path) (e : Emission) : ¬ Reported t path e := by
  rintro ⟨q, u, hu, hplain, -⟩
  rw [← Bool.not_eq_true, isPlain_iff] at hplain
  exact isNode_isValue h q ⟨u, hu, hplain⟩

variable {key path k : Path}

theorem reported_short (hne : key ≠ []) (c : Tree) (path : Path) (e : Emission) :
    Reported (.short key c) path e ↔ Here (.short key c) path e ∨ Reported c (path ++ key) e := by
  constructor
  · rintro ⟨q, u, hu, hplain, hown, rfl⟩
    rcases (sub_short_iff hne).mp hu with ⟨rfl, rfl⟩ | ⟨r, rfl, hr⟩
    · rw [append_nil] at hown ⊢
      exact .inl ⟨hown, rfl⟩
    · rw [← append_assoc] at hown ⊢
      exact .inr ⟨r, u, hr, hplain, hown, rfl⟩
  · rintro (⟨hown, rfl⟩ | ⟨q, u, hu, hplain, hown, rfl⟩)
    · refine ⟨[], _, sub_here _, rfl, ?_, ?_⟩ <;> rw [append_nil]
      exact hown
    · rw [append_assoc] at hown ⊢
      exact ⟨key ++ q, u, by rw [sub_short hne, hu], hplain, hown, rfl⟩

theorem reported_full (ts : Nibble → Tree) (path : Path) (e : Emission) :
    Reported (.full ts) path e ↔ Here (.full ts) path e ∨ ∃ i, Reported (ts i) (path ++ [i]) e := by
  constructor
  · rintro ⟨q, u, hu, hplain, hown, rfl⟩
    rcases sub_full_iff.mp hu with ⟨rfl, rfl⟩ | ⟨i, q, rfl, hq⟩
    · rw [append_nil] at hown ⊢
      exact .inl ⟨hown, rfl⟩
    · rw [append_cons] at hown ⊢
      exact .inr ⟨i, q, u, hq, hplain, hown, rfl⟩
  · rintro (⟨hown, rfl⟩ | ⟨i, q, u, hu, hplain, hown, rfl⟩)
    · refine ⟨[], _, sub_here _, rfl, ?_, ?_⟩ <;> rw [append_nil]
      exact hown
    · rw [← append_cons] at hown ⊢
      exact ⟨i :: q, u, hu, hplain, hown, rfl⟩

/-! ### Hashing -/

/-- The end of `hash`. -/
theorem emitBlob_spec (hplain : isPlain t = false) (path : Path) :
    ∃ out, emitBlob path (enc t) = (hashRef path.isEmpty t, out) ∧
      ∀ e, e ∈ out ↔ Here t path e := by
  unfold emitBlob
  by_cases hsmall : (enc t).length < 32 ∧ 0 < path.length
  · have hne : path ≠ [] := ne_nil_of_length_pos hsmall.2
    have hs : standalone t = false := by
      rw [← Bool.not_eq_true, standalone_iff]
      exact fun h => absurd h.2 (by omega)
    rw [if_pos hsmall]
    refine ⟨[], ?_, fun e => iff_of_false nofun ?_⟩
    · rw [hashRef, isEmpty_eq_false_iff.mpr hne, if_neg Bool.false_ne_true, ref_of_embedded hs]
    · rintro ⟨hnil | hlong, -⟩
      · exact hne hnil
      · omega
  · rw [if_neg hsmall]
    have hown : path = [] ∨ 32 ≤ (enc t).length := by
      rw [← length_eq_zero_iff]
      omega
    refine ⟨_, ?_, fun e => mem_singleton.trans ⟨fun h => ⟨hown, h⟩, And.right⟩⟩
    · rw [hashRef]
      split
      · rfl
      · rename_i hroot
        rw [List.isEmpty_iff] at hroot
        rw [ref_of_standalone (standalone_iff.mpr ⟨hplain, hown.resolve_left hroot⟩)]

/-- What hashing the node at `path` must do. -/
def HashesTo (n : StNode) (t : Tree) (path : Path) : Prop :=
  ∃ out, stHash n path = some (hashRef path.isEmpty t, out) ∧
    ∀ e, Sent n t path e ∨ e ∈ out ↔ Reported t path e

theorem hashRef_below (t : Tree) (hne : path ≠ []) : hashRef path.isEmpty t = ref t := by
  rw [hashRef, isEmpty_eq_false_iff.mpr hne, if_neg Bool.false_ne_true]

variable {children : Nibble → StNode} {ts : Nibble → Tree}

/-- The loop over the children of a branch. -/
theorem hashChildren_spec (path : Path) {l : List Nibble}
    (hrep : ∀ i ∈ l, StRep (children i) (ts i))
    (hhash : ∀ i ∈ l, isPlain (ts i) = false → HashesTo (children i) (ts i) (path ++ [i]))
    (vals : Nibble → Bytes) (out₀ : List Emission) : ∃ vals' out,
      l.foldlM (hashChild children fun i => stHash (children i) (path ++ [i])) (vals, out₀) =
        some (vals', out₀ ++ out) ∧
      (∀ i, vals' i = if i ∈ l ∧ isPlain (ts i) = false then ref (ts i) else vals i) ∧
      ∀ e, (∃ i ∈ l, Sent (children i) (ts i) (path ++ [i]) e) ∨ e ∈ out ↔
        ∃ i ∈ l, Reported (ts i) (path ++ [i]) e := by
  induction l generalizing vals out₀ with
  | nil => exact ⟨vals, [], by simp, by simp, by simp⟩
  | cons j l ih =>
    have hrep' : ∀ i ∈ l, StRep (children i) (ts i) := fun i hi => hrep i (mem_cons_of_mem _ hi)
    have hhash' : ∀ i ∈ l, isPlain (ts i) = false → HashesTo (children i) (ts i) (path ++ [i]) :=
      fun i hi => hhash i (mem_cons_of_mem _ hi)
    have hj := hrep j mem_cons_self
    rw [foldlM_cons, hashChild, hj.isNil]
    cases hplain : isPlain (ts j) with
    | true =>
      -- no child
      have hnil : children j = .nil := isNil_iff.mp (hj.isNil.trans hplain)
      rcases ih hrep' hhash' vals out₀ with ⟨vals', out, hfold, hvals, hout⟩
      refine ⟨vals', out, hfold, fun i => ?_, fun e => ?_⟩
      · rw [hvals i]
        by_cases hi : i = j
        · subst hi
          simp [hplain]
        · simp [hi]
      · simp [hnil, Sent, hout e, reported_plain (isPlain_iff.mp hplain)]
    | false =>
      rcases hhash j mem_cons_self hplain with ⟨outj, hstj, hsent⟩
      rw [hashRef_below _ (append_ne_nil_of_right_ne_nil path (cons_ne_nil j []))] at hstj
      rcases ih hrep' hhash' (update vals j (ref (ts j))) (out₀ ++ outj) with
        ⟨vals', out, hfold, hvals, hout⟩
      refine ⟨vals', outj ++ out, ?_, fun i => ?_, fun e => ?_⟩
      · rw [hstj, ← append_assoc]
        exact hfold
      · rw [hvals i]
        by_cases hi : i = j
        · subst hi
          simp [hplain]
        · simp [hi]
      · simp only [exists_mem_cons_iff, ← hsent e, ← hout e, mem_append]
        exact or_or_or_comm

/-- **Hashing** a node gives the reference to its tree and reports what has not been
    reported. -/
theorem stHash_spec (path : Path) (h : StRep n t) (hplain : isPlain t = false)
    (hopen : (∃ val, n = .hashed val) → path ≠ []) : HashesTo n t path := by
  induction n generalizing t path with
  | nil =>
    rw [show t = .nil from h] at hplain
    cases hplain
  | empty => exact h.elim
  | hashed val =>
    refine ⟨[], ?_, fun e => ?_⟩
    · rw [stHash, hashRef_below t (hopen ⟨val, rfl⟩), h.1]
    · simp [Sent]
  | leaf key val =>
    rcases h with ⟨v, rfl, hkey, rfl⟩
    have hne : key ++ [16] ≠ [] := append_ne_nil_of_right_ne_nil key (cons_ne_nil _ _)
    have hterm : hasTerm (key ++ [16]) = true := hasTerm_of_terminated ⟨key, rfl, hkey⟩
    have henc : enc (.short (key ++ [16]) (.value v)) =
        leafEncode (hexToCompact (key ++ [16])) v.val := by
      rw [enc_short, shortEncode, if_pos hterm]
      rfl
    rcases emitBlob_spec hplain path with ⟨here, hemit, hhere⟩
    rw [henc] at hemit
    refine ⟨here, ?_, fun e => ?_⟩
    · rw [stHash, hexToCompactInPlace_eq hne, Option.map_some, hemit]
    · rw [hhere, reported_short hne]
      simp [Sent, reported_plain (.inr ⟨v, rfl⟩)]
  | ext key child ih =>
    rcases h with ⟨c, rfl, hne, hkey, hc, hrep⟩
    have hbelow : path ++ key ≠ [] := append_ne_nil_of_right_ne_nil path hne
    rcases ih (path ++ key) hrep hc fun _ => hbelow with ⟨out, hst, hsent⟩
    rw [hashRef_below c hbelow] at hst
    have henc : enc (.short key c) = extEncode (hexToCompact key) (ref c) := by
      rw [enc_short, shortEncode, hasTerm_of_notMem hkey, if_neg Bool.false_ne_true]
    rcases emitBlob_spec hplain path with ⟨here, hemit, hhere⟩
    rw [henc] at hemit
    refine ⟨out ++ here, ?_, fun e => ?_⟩
    · rw [stHash, hst, hexToCompactInPlace_eq hne, Option.bind_some, Option.map_some, hemit]
    · rw [mem_append, hhere, reported_short hne, ← hsent e]
      simp only [Sent, short.injEq, true_and, exists_eq_left']
      rw [← or_assoc, or_comm]
  | branch children ih =>
    rcases h with ⟨ts, rfl, hlast, hrep⟩
    have hlast' : ts 16 = .nil := by
      have := hrep 16
      rw [hlast] at this
      exact this
    rcases hashChildren_spec path (l := childIndices) (fun i _ => hrep i)
      (fun i _ hi => ih i _ (hrep i) hi fun _ =>
        append_ne_nil_of_right_ne_nil path (cons_ne_nil i [])) (fun _ => []) [] with
      ⟨vals, out, hfold, hvals, hsent⟩
    have henc : enc (.full ts) = fullEncode vals := by
      rw [enc_full]
      congr 1
      funext i
      rw [hvals i]
      by_cases hi : isPlain (ts i) = false
      · have hne : i ≠ 16 := by
          rintro rfl
          rw [hlast'] at hi
          cases hi
        rw [if_pos ⟨mem_childIndices.mpr hne, hi⟩]
      · have hnil : ts i = .nil := by
          have hr := hrep i
          rw [isNil_iff.mp (hr.isNil.trans (Bool.not_eq_false _ ▸ hi))] at hr
          exact hr
        rw [if_neg fun h => hi h.2, hnil]
        rfl
    rcases emitBlob_spec hplain path with ⟨here, hemit, hhere⟩
    rw [henc] at hemit
    refine ⟨out ++ here, ?_, fun e => ?_⟩
    · rw [stHash, hfold, Option.map_some, hemit, nil_append]
    · have hall : ∀ P : Nibble → Prop, ¬ P 16 → ((∃ i ∈ childIndices, P i) ↔ ∃ i, P i) := by
        intro P hP
        simp only [mem_childIndices]
        refine exists_congr fun i => and_iff_right_of_imp fun hi => ?_
        rintro rfl
        exact hP hi
      have hno : ¬ Sent (children 16) (ts 16) (path ++ [16]) e := by
        rw [hlast]
        exact id
      have hno' : ¬ Reported (ts 16) (path ++ [16]) e := by
        rw [hlast']
        exact reported_plain (.inl rfl) _ e
      have he := hsent e
      rw [hall _ hno, hall _ hno'] at he
      rw [mem_append, hhere, reported_full, ← he]
      simp only [Sent, full.injEq, exists_eq_left']
      rw [← or_assoc, or_comm]

/-! ### The order of the keys -/

section
omit [Crypto]

/-- A key behind `key ++ r` goes through `key`, or it leaves it to the right. -/
theorem right_of_append {r : Path} (hlt : key ++ r < k) (hpre : ¬ key ++ r <+: k) :
    (∃ k', k = key ++ k' ∧ r < k' ∧ ¬ r <+: k') ∨
      ∃ p a key' b k', key = p ++ a :: key' ∧ k = p ++ b :: k' ∧ a < b := by
  induction key generalizing k with
  | nil => exact .inl ⟨k, rfl, hlt, hpre⟩
  | cons a key ih =>
    cases k with
    | nil => exact absurd hlt (not_lt_nil _)
    | cons b k =>
      rw [cons_append, cons_lt_cons_iff] at hlt
      rcases hlt with hab | ⟨rfl, hlt⟩
      · exact .inr ⟨[], a, key, b, k, rfl, rfl, hab⟩
      · rw [cons_append, prefix_cons_inj] at hpre
        rcases ih hlt hpre with ⟨k', rfl, h⟩ | ⟨p, c, key', b, k', rfl, rfl, h⟩
        · exact .inl ⟨k', rfl, h⟩
        · exact .inr ⟨a :: p, c, key', b, k', rfl, rfl, h⟩

theorem getDiffIndex_through (key k : Path) : getDiffIndex key (key ++ k) = some key.length := by
  induction key with
  | nil => rfl
  | cons a key ih => simp [getDiffIndex, ih]

theorem getDiffIndex_fork {b : Nibble} (hab : a ≠ b) (p key k : Path) :
    getDiffIndex (p ++ a :: key) (p ++ b :: k) = some p.length := by
  induction p with
  | nil => simp [getDiffIndex, hab]
  | cons c p ih => simp [getDiffIndex, ih]

end

/-! ### Insertion -/

/-- The way to the last key: no node on it is hashed, and nothing is to the right of it. -/
inductive Rightmost : StNode → Path → Prop
  | leaf (key : Path) (val : Bytes) : Rightmost (.leaf key val) key
  | ext {child : StNode} {r : Path} (key : Path) : Rightmost child r →
      Rightmost (.ext key child) (key ++ r)
  | branch {children : Nibble → StNode} {j : Nibble} {r : Path} : Rightmost (children j) r →
      (∀ i, j < i → children i = .nil) → Rightmost (.branch children) (j :: r)

omit [Crypto] in
theorem Rightmost.isNil (h : Rightmost n k) : n.isNil = false := by
  cases h <;> rfl

omit [Crypto] in
theorem Rightmost.open_ (h : Rightmost n k) : ¬ ∃ val, n = .hashed val := by
  rintro ⟨val, rfl⟩
  cases h

/-- The result of an insertion. -/
structure Inserted (n : StNode) (t : Tree) (path k : Path) (n' : StNode) (t' : Tree)
    (out : List Emission) : Prop where
  rep : StRep n' t'
  rightmost : Rightmost n' k
  sent : ∀ e, Sent n t path e ∨ e ∈ out ↔ Sent n' t' path e

/-- A node below a path that may be empty. -/
def attachSt (key : Path) (n : StNode) : StNode := if key = [] then n else .ext key n

theorem StRep.attachSt (h : StRep n t) (hplain : isPlain t = false) (hkey : (16 : Nibble) ∉ key) :
    StRep (attachSt key n) (attach key t) := by
  by_cases hnil : key = []
  · subst hnil
    exact h
  · rw [MPT.attachSt, if_neg hnil, attach, if_neg hnil]
    exact ⟨t, rfl, hnil, hkey, hplain, h⟩

omit [Crypto] in
theorem isPlain_attach (hplain : isPlain t = false) (key : Path) :
    isPlain (attach key t) = false := by
  cases key with
  | nil => exact hplain
  | cons a key => rfl

theorem sent_attach (n : StNode) (t : Tree) (key path : Path) (e : Emission) :
    Sent (attachSt key n) (attach key t) path e ↔ Sent n t (path ++ key) e := by
  by_cases hnil : key = []
  · subst hnil
    rw [append_nil]
    rfl
  · rw [attachSt, if_neg hnil, attach, if_neg hnil]
    simp [Sent]

omit [Crypto] in
theorem Rightmost.attachSt (h : Rightmost n k) (key : Path) :
    Rightmost (attachSt key n) (key ++ k) := by
  by_cases hnil : key = []
  · subst hnil
    exact h
  · rw [MPT.attachSt, if_neg hnil]
    exact .ext key h

omit [Crypto] in
theorem splitNode_fork (p key k : Path) (a b : Nibble) (value val : Bytes) :
    splitNode (p ++ a :: key) (p ++ b :: k) value p.length val =
      some (attachSt p (.branch (update (update (fun _ => .nil) a (.hashed val)) b
        (.leaf k value)))) := by
  rw [splitNode, attachSt]
  simp

/-- What the children have sent, if the child at `a` is replaced. -/
theorem sent_update {out : List Emission} {e : Emission}
    (h : Sent (children a) (ts a) (path ++ [a]) e ∨ e ∈ out ↔ Sent n t (path ++ [a]) e) :
    (∃ i, Sent (children i) (ts i) (path ++ [i]) e) ∨ e ∈ out ↔
      ∃ i, Sent (update children a n i) (update ts a t i) (path ++ [i]) e := by
  constructor
  · rintro (⟨i, hi⟩ | hout)
    · by_cases hia : i = a
      · subst hia
        refine ⟨i, ?_⟩
        rw [update_self, update_self]
        exact h.mp (.inl hi)
      · refine ⟨i, ?_⟩
        rw [update_of_ne hia, update_of_ne hia]
        exact hi
    · refine ⟨a, ?_⟩
      rw [update_self, update_self]
      exact h.mp (.inr hout)
  · rintro ⟨i, hi⟩
    by_cases hia : i = a
    · subst hia
      rw [update_self, update_self] at hi
      exact (h.mpr hi).imp_left fun hs => ⟨i, hs⟩
    · rw [update_of_ne hia, update_of_ne hia] at hi
      exact .inl ⟨i, hi⟩

theorem stRep_update (h : ∀ i, StRep (children i) (ts i)) (hn : StRep n t) (i : Nibble) :
    StRep (update children a n i) (update ts a t i) := by
  by_cases hia : i = a
  · subst hia
    rw [update_self, update_self]
    exact hn
  · rw [update_of_ne hia, update_of_ne hia]
    exact h i

/-- A chunk that is split: the old part is hashed next to the new leaf. -/
theorem split_spec (h : StRep n t) (hplain : isPlain t = false) {p : Path} {b : Nibble}
    (hab : a < b) (hp : (16 : Nibble) ∉ p) (hb : b ≠ 16) (hk : (16 : Nibble) ∉ k) (v : Value)
    (path key : Path) : ∃ val out n',
      stHash n (path ++ (p ++ [a])) = some (val, out) ∧
      splitNode (p ++ a :: key) (p ++ b :: k) v.val p.length val = some n' ∧
      StRep n' (attach p (.full (fork a t b (.short (k ++ [16]) (.value v))))) ∧
      Rightmost n' (p ++ b :: k) ∧
      ∀ e, Sent n t (path ++ (p ++ [a])) e ∨ e ∈ out ↔
        Sent n' (attach p (.full (fork a t b (.short (k ++ [16]) (.value v))))) path e := by
  have hne : path ++ (p ++ [a]) ≠ [] := by simp
  rcases stHash_spec _ h hplain fun _ => hne with ⟨out, hst, hsent⟩
  rw [hashRef_below t hne] at hst
  have ha : a ≠ 16 := by
    rintro rfl
    exact absurd hab (Fin.le_last b).not_gt
  have hleaf : StRep (.leaf k v.val) (.short (k ++ [16]) (.value v)) := ⟨v, rfl, hk, rfl⟩
  have hbranch : StRep (.branch (update (update (fun _ => .nil) a
      (.hashed (ref t))) b (.leaf k v.val)))
        (.full (fork a t b (.short (k ++ [16]) (.value v)))) := by
    refine ⟨_, rfl, ?_, ?_⟩
    · rw [update_of_ne hb.symm, update_of_ne ha.symm]
    · exact stRep_update (stRep_update (fun _ => rfl) ⟨rfl, hplain⟩) hleaf
  refine ⟨ref t, out, _, hst, splitNode_fork p key k a b v.val (ref t), hbranch.attachSt rfl hp,
    .attachSt (.branch ?_ fun i hi => ?_) p, fun e => ?_⟩
  · rw [update_self]
    exact .leaf k v.val
  · rw [update_of_ne hi.ne', update_of_ne (hab.trans hi).ne']
  · rw [hsent e, sent_attach]
    constructor
    · intro he
      refine ⟨_, rfl, a, ?_⟩
      rw [update_of_ne hab.ne, update_self, lookup_fork_left hab.ne, append_assoc]
      exact he
    · rintro ⟨ts, hts, i, hi⟩
      cases hts
      by_cases hib : i = b
      · subst hib
        rw [update_self] at hi
        exact hi.elim
      · by_cases hia : i = a
        · subst hia
          rw [update_of_ne hib, update_self, lookup_fork_left hab.ne, append_assoc] at hi
          exact hi
        · rw [update_of_ne hib, update_of_ne hia] at hi
          exact hi.elim

/-- The elder sibling that is hashed. -/
theorem hashElder_spec (hrep : ∀ i, StRep (children i) (ts i)) (idx : Nibble) (path : Path) :
    ∃ elders out,
      hashElder children idx path = some (elders, out) ∧ (∀ i, StRep (elders i) (ts i)) ∧
      (∀ i, idx ≤ i → elders i = children i) ∧ (∀ i, children i = .nil → elders i = .nil) ∧
      ∀ e, (∃ i, Sent (children i) (ts i) (path ++ [i]) e) ∨ e ∈ out ↔
        ∃ i, Sent (elders i) (ts i) (path ++ [i]) e := by
  unfold hashElder
  cases helder : elder children idx with
  | none => exact ⟨children, [], rfl, hrep, fun _ _ => rfl, fun _ => id, fun e => by simp⟩
  | some j =>
    have hlt : j < idx := by
      have := mem_of_find?_eq_some helder
      rw [mem_filter, decide_eq_true_eq] at this
      exact this.2
    have hne : (children j).isNil = false := by
      have := find?_some helder
      rwa [Bool.not_eq_true'] at this
    have hplain : isPlain (ts j) = false := by
      rw [← (hrep j).isNil, hne]
    have hpath : path ++ [j] ≠ [] := by simp
    rcases stHash_spec _ (hrep j) hplain fun _ => hpath with ⟨out, hst, hsent⟩
    rw [hashRef_below _ hpath] at hst
    refine ⟨update children j (.hashed (ref (ts j))), out, ?_, fun i => ?_, fun i hi => ?_,
      fun i hi => ?_, fun e => ?_⟩
    · simp only [hst, Option.map_some]
    · have := stRep_update (a := j) (n := .hashed (ref (ts j))) (t := ts j) hrep ⟨rfl, hplain⟩ i
      rwa [update_eq_self] at this
    · exact update_of_ne (hlt.trans_le hi).ne' _ _
    · have hij : i ≠ j := by
        rintro rfl
        rw [hi] at hne
        cases hne
      rw [update_of_ne hij, hi]
    · have := sent_update (n := .hashed (ref (ts j))) (t := ts j) (hsent e)
      rwa [update_eq_self] at this

section
omit [Crypto]

theorem drop_fork (p key : Path) (a : Nibble) : (p ++ a :: key).drop (p.length + 1) = key := by
  simp

theorem take_fork (p key : Path) (a : Nibble) : (p ++ a :: key).take (p.length + 1) = p ++ [a] := by
  simp [take_append]

theorem attach_leaf (k : Path) (t : Tree) : attach (k ++ [16]) t = .short (k ++ [16]) t :=
  if_neg (append_ne_nil_of_right_ne_nil k (cons_ne_nil _ _))

/-- The part of an extension below a split. -/
theorem ext_rest (p key : Path) (a : Nibble) (child : StNode) :
    (if p.length < (p ++ a :: key).length - 1 then
      ext ((p ++ a :: key).drop (p.length + 1)) child else child) = attachSt key child := by
  have hlen : p.length < (p ++ a :: key).length - 1 ↔ key ≠ [] := by
    rw [← length_pos_iff, length_append, length_cons]
    omega
  rw [drop_fork, attachSt]
  by_cases hkey : key = []
  · rw [if_neg fun h => hlen.mp h hkey, if_pos hkey]
  · rw [if_pos (hlen.mpr hkey), if_neg hkey]

end

/-- **Inserting** a key to the right of the last one. -/
theorem stInsert_spec {k₀ : Path} (path : Path) (h : StRep n t) (hright : Rightmost n k₀)
    (hlt : k₀ < k) (hpre : ¬ k₀ <+: k) (hk : (16 : Nibble) ∉ k) (v : Value) :
    ∃ n' out, stInsert n k v.val path = some (n', out) ∧
      Inserted n t path k n' (t.insert (k ++ [16]) v) out := by
  induction hright generalizing t k path with
  | leaf key val =>
    rcases h with ⟨w, rfl, hkey, rfl⟩
    rw [← append_nil key] at hlt hpre
    rcases right_of_append hlt hpre with ⟨k', -, -, hnil⟩ | ⟨p, a, key', b, k', rfl, rfl, hab⟩
    · exact absurd nil_prefix hnil
    simp only [mem_append, mem_cons, not_or] at hk hkey
    have hold : StRep (.leaf key' w.val) (.short (key' ++ [16]) (.value w)) :=
      ⟨w, rfl, hkey.2.2, rfl⟩
    rcases split_spec hold rfl hab hk.1 (Ne.symm hk.2.1) hk.2.2 v path key' with
      ⟨val, out, n', hst, hsplit, hrep, hright, hsent⟩
    have hins : (short (p ++ a :: key' ++ [16]) (value w) : Tree).insert (p ++ b :: k' ++ [16]) v =
        attach p (.full (fork a (.short (key' ++ [16]) (.value w)) b
          (.short (k' ++ [16]) (.value v)))) := by
      rw [append_assoc, append_assoc, cons_append, cons_append,
        insert_short_fork hab.ne, attach_leaf, attach_leaf]
    refine ⟨n', out, ?_, ?_⟩
    · simp [stInsert, getDiffIndex_fork hab.ne, take_fork, hst, hsplit]
    · rw [hins]
      exact ⟨hrep, hright, hsent⟩
  | @ext child r key hright ih =>
    rcases h with ⟨c, rfl, hne, hkey, hc, hrep⟩
    rcases right_of_append hlt hpre with ⟨k', rfl, hlt', hpre'⟩ | ⟨p, a, key', b, k', rfl, rfl, hab⟩
    · -- through the extension
      simp only [mem_append, not_or] at hk
      rcases ih (path ++ key) hrep hlt' hpre' hk.2 with ⟨n', out, hins, hspec⟩
      refine ⟨.ext key n', out, ?_, ?_⟩
      · simp [stInsert, getDiffIndex_through, hins]
      · rw [append_assoc, insert_short_append (by simp)]
        refine ⟨⟨_, rfl, hne, hkey, ?_, hspec.rep⟩, .ext key hspec.rightmost, fun e => ?_⟩
        · rw [← hspec.rep.isNil, hspec.rightmost.isNil]
        · simp [Sent, hspec.sent e]
    · simp only [mem_append, mem_cons, not_or] at hk hkey
      have hold := hrep.attachSt hc hkey.2.2
      rcases split_spec hold (isPlain_attach hc key') hab hk.1 (Ne.symm hk.2.1) hk.2.2 v path key'
        with ⟨val, out, n', hst, hsplit, hrep', hright', hsent⟩
      have hins : (short (p ++ a :: key') c : Tree).insert (p ++ b :: k' ++ [16]) v =
          attach p (.full (fork a (attach key' c) b (.short (k' ++ [16]) (.value v)))) := by
        rw [append_assoc, cons_append, insert_short_fork hab.ne, attach_leaf]
      refine ⟨n', out, ?_, ?_⟩
      · have hlen : ¬ p.length = (p ++ a :: key').length := by simp
        simp only [stInsert, getDiffIndex_fork hab.ne, Option.bind_eq_bind, Option.bind_some,
          if_neg hlen, take_fork, ext_rest, hst, hsplit]
      · rw [hins]
        refine ⟨hrep', hright', fun e => ?_⟩
        rw [← hsent e, sent_attach, append_assoc, append_assoc]
        simp only [Sent, short.injEq, true_and, exists_eq_left']
        rfl
  | @branch children j r hright hnil ih =>
    rcases h with ⟨ts, rfl, hlast, hrep⟩
    cases k with
    | nil => exact absurd hlt (not_lt_nil _)
    | cons a k =>
      rw [mem_cons, not_or] at hk
      rcases hashElder_spec hrep a path with ⟨elders, out, helder, hrepe, hsame, hnile, hsente⟩
      have hbranch : ∀ {child : StNode} {c : Tree} {out' : List Emission}, StRep child c →
          Rightmost child k → j ≤ a →
          (∀ e, Sent (children a) (ts a) (path ++ [a]) e ∨ e ∈ out' ↔
            Sent child c (path ++ [a]) e) →
          Inserted (.branch children) (.full ts) path (a :: k)
            (.branch (update elders a child)) (.full (update ts a c))
            (out ++ out') := by
        intro child c out' hchild hright' hja hsent
        refine ⟨⟨_, rfl, ?_, stRep_update hrepe hchild⟩, .branch ?_ fun i hi => ?_, fun e => ?_⟩
        · rw [update_of_ne hk.1, hnile 16 hlast]
        · rw [update_self]
          exact hright'
        · rw [update_of_ne hi.ne', hnile i (hnil i (hja.trans_lt hi))]
        · have hsent' := hsent e
          rw [← hsame a le_rfl] at hsent'
          simp [Sent, ← sent_update hsent', ← hsente e, or_assoc]
      rw [cons_lt_cons_iff] at hlt
      rcases hlt with hja | ⟨rfl, hlt'⟩
      · -- a new child
        have hnew : children a = .nil := hnil a hja
        have ht : ts a = .nil := by
          have := hrep a
          rw [hnew] at this
          exact this
        have hinsert : (ts a).insert (k ++ [16]) v = .short (k ++ [16]) (.value v) := by
          rw [ht]
          cases k <;> rfl
        refine ⟨.branch (update elders a (.leaf k v.val)), out ++ [], ?_, ?_⟩
        · simp [stInsert, helder, hnew, StNode.isNil]
        · rw [cons_append, insert_full_cons, hinsert]
          refine hbranch ⟨v, rfl, hk.2, rfl⟩ (.leaf k v.val) hja.le fun e => ?_
          rw [hnew]
          simp [Sent]
      · -- the last child
        rw [prefix_cons_inj] at hpre
        rcases ih (path ++ [j]) (hrep j) hlt' hpre hk.2 with ⟨n', out', hins, hspec⟩
        refine ⟨.branch (update elders j n'), out ++ out', ?_, ?_⟩
        · simp [stInsert, helder, hright.isNil, hins]
        · exact hbranch hspec.rep hspec.rightmost le_rfl hspec.sent

/-! ### Runs -/

section
omit [Crypto]

theorem nibbles_append_lt {b c : UInt8} (h : b < c)
    (p q : Path) : nibbles b ++ p < nibbles c ++ q := by
  have hlt : b.toNat < c.toNat := h
  simp only [nibbles, cons_append, cons_lt_cons_iff, Fin.mk_lt_mk, Fin.mk.injEq]
  omega

/-- The nibbles of ascending keys ascend. -/
theorem nibbles_lt {key key' : Bytes}
    (h : key < key') : key.flatMap nibbles < key'.flatMap nibbles := by
  induction key generalizing key' with
  | nil =>
    cases key' with
    | nil => exact absurd h (List.lt_irrefl _)
    | cons c key' => exact nil_lt_cons _ _
  | cons b key ih =>
    cases key' with
    | nil => exact absurd h (not_lt_nil _)
    | cons c key' =>
      rcases cons_lt_cons_iff.mp h with hbc | ⟨rfl, hlt⟩
      · exact nibbles_append_lt hbc _ _
      · exact append_left_lt (ih hlt)

theorem initial_of_nibbles {key key' : Bytes} (h : key.flatMap nibbles <+: key'.flatMap nibbles) :
    key <+: key' := by
  induction key generalizing key' with
  | nil => exact nil_prefix
  | cons b key ih =>
    cases key' with
    | nil => simp [nibbles] at h
    | cons c key' =>
      rw [flatMap_cons] at h
      rcases h with ⟨r, hr⟩
      rw [append_assoc] at hr
      rcases append_inj hr rfl with ⟨hbc, hrest⟩
      rw [nibbles_inj hbc, prefix_cons_inj]
      exact ih ⟨r, hrest⟩

theorem notMem_flatMap_nibbles (key : Bytes) : (16 : Nibble) ∉ key.flatMap nibbles := by
  rw [mem_flatMap]
  rintro ⟨b, -, hb⟩
  exact notMem_nibbles b hb

end

/-- A stack trie that got the pairs of a map. -/
structure StackInv (m : GoMap Bytes Bytes) (st : StackTrie) (t : Tree) : Prop where
  contents : Contents t m
  state : (st.root = .empty ∧ st.last = [] ∧ t = .nil ∧ st.emitted = []) ∨
    StRep st.root t ∧ Rightmost st.root st.last ∧ ∀ e, e ∈ st.emitted ↔ Sent st.root t [] e

/-- A key that may come next. -/
def StackTrie.Precedes (st : StackTrie) (key : Bytes) : Prop :=
  st.root = .empty ∧ st.last = [] ∨
    st.last < key.flatMap nibbles ∧ ¬ st.last <+: key.flatMap nibbles

variable {m : GoMap Bytes Bytes}

/-- One `Update`. -/
theorem StackInv.update (h : StackInv m st t) {key : Bytes} (hkey : ValidKey key) (hne : key ≠ [])
    (hnext : st.Precedes key) (v : Value) :
    ∃ st' t', st.update key v.val = some (.ok (), st') ∧ st'.last = key.flatMap nibbles ∧
      StackInv (m.insert key v.val) st' t' := by
  have hlen : v.val.length ≠ 0 := fun hzero => v.prop.1 (length_eq_zero_iff.mp hzero)
  have hnib : key.flatMap nibbles ≠ [] := by
    rcases exists_cons_of_ne_nil hne with ⟨b, key, rfl⟩
    simp [nibbles]
  have hlt : st.last < key.flatMap nibbles := by
    rcases hnext with ⟨-, hlast⟩ | hnext
    · rcases exists_cons_of_ne_nil hnib with ⟨a, k, hk⟩
      rw [hlast, hk]
      exact nil_lt_cons a k
    · exact hnext.1
  have hterm := notMem_flatMap_nibbles key
  have hcontents := h.contents.insert hkey v
  unfold StackTrie.update
  rw [if_neg hlen, writeHexKey, if_neg hne]
  simp only [Option.bind_eq_bind, Option.bind_some, hlt]
  rcases h.state with ⟨hroot, -, rfl, hemit⟩ | ⟨hrep, hright, hsent⟩
  · rw [hroot]
    refine ⟨_, _, rfl, rfl, hcontents, .inr ⟨⟨v, rfl, hterm, ?_⟩, .leaf _ _, fun e => ?_⟩⟩
    · rw [keybytesToHex]
      cases key.flatMap nibbles <;> rfl
    · simp [hemit, Sent]
  · have hpre : ¬ st.last <+: key.flatMap nibbles := by
      rcases hnext with ⟨hroot, -⟩ | hnext
      · rw [hroot] at hrep
        exact hrep.elim
      · exact hnext.2
    rcases stInsert_spec [] hrep hright hlt hpre hterm v with ⟨n', out, hins, hspec⟩
    simp only [hins]
    refine ⟨_, _, rfl, rfl, hcontents, .inr ⟨hspec.rep, hspec.rightmost, fun e => ?_⟩⟩
    rw [mem_append, hsent e]
    exact hspec.sent e

/-- `Hash` gives the root and reports the rest of the nodes. -/
theorem StackInv.hash (h : StackInv m st t) :
    ∃ st', st.hash = some (rootHash t, st') ∧ ∀ e, e ∈ st'.emitted ↔ Reported t [] e := by
  unfold StackTrie.hash
  rcases h.state with ⟨hroot, -, rfl, hemit⟩ | ⟨hrep, hright, hsent⟩
  · rw [hroot]
    refine ⟨{ st with root := .hashed (hashBytes emptyRootHash), emitted := st.emitted ++ [] }, ?_,
      fun e => ?_⟩
    · exact congrArg (fun h => some (h, _)) (bytesToHash_hashBytes _)
    · simp [hemit, reported_plain (.inl rfl)]
  · have hplain : isPlain t = false := by
      rw [← hrep.isNil, hright.isNil]
    have hnil : t.isNil = false := by
      cases t <;> first | rfl | cases hplain
    rcases stHash_spec [] hrep hplain fun hhashed => absurd hhashed hright.open_ with
      ⟨out, hst, hall⟩
    refine ⟨{ st with root := .hashed (hashRef true t), emitted := st.emitted ++ out }, ?_,
      fun e => ?_⟩
    · have hval : bytesToHash (hashRef true t) = rootHash t := by
        rw [hashRef, if_pos rfl, bytesToHash_hashBytes, rootHash, hnil, if_neg Bool.false_ne_true]
      simp [hst, hval]
    · rw [← hall e, ← hsent e]
      exact mem_append

/-- An `Update` that succeeds. -/
def StackTrie.apply (st : StackTrie) (pair : Bytes × Bytes) : Option StackTrie :=
  match st.update pair.1 pair.2 with
  | some (.ok (), st) => some st
  | _ => none

/-- A run of updates that all succeed. -/
def StackTrie.run (st : StackTrie) (pairs : List (Bytes × Bytes)) : Option StackTrie :=
  pairs.foldlM StackTrie.apply st

/-- Strictly ascending keys, none a prefix of another. -/
def Ascending (pairs : List (Bytes × Bytes)) : Prop :=
  pairs.Pairwise fun p q => p.1 < q.1 ∧ ¬ p.1 <+: q.1

/-- Non-empty slices. -/
def ValidPair (pair : Bytes × Bytes) : Prop :=
  (pair.1 ≠ [] ∧ ValidKey pair.1) ∧ pair.2 ≠ [] ∧ ValidValue pair.2

variable {pairs : List (Bytes × Bytes)}

/-- **A run** of updates with ascending keys. -/
theorem StackInv.run (h : StackInv m st t) (hasc : Ascending pairs)
    (hvalid : ∀ p ∈ pairs, ValidPair p) (hnext : ∀ p ∈ pairs, st.Precedes p.1) :
    ∃ st' t', st.run pairs = some st' ∧
      StackInv ((pairs.map fun p => TrieOp.update p.1 p.2).foldl TrieOp.effect m) st' t' := by
  induction pairs generalizing m st t with
  | nil => exact ⟨st, t, rfl, h⟩
  | cons p pairs ih =>
    rw [Ascending, pairwise_cons] at hasc
    have hp := hvalid p mem_cons_self
    rcases h.update hp.1.2 hp.1.1 (hnext p mem_cons_self) ⟨p.2, hp.2⟩ with
      ⟨st₁, t₁, hupd, hlast, hinv⟩
    have hnext' : ∀ q ∈ pairs, st₁.Precedes q.1 := by
      intro q hq
      rw [StackTrie.Precedes, hlast]
      exact .inr ⟨nibbles_lt (hasc.1 q hq).1, fun hpre => (hasc.1 q hq).2 (initial_of_nibbles hpre)⟩
    rcases ih hinv hasc.2 (fun q hq => hvalid q (mem_cons_of_mem _ hq)) hnext' with
      ⟨st', t', hrun, hinv'⟩
    refine ⟨st', t', ?_, ?_⟩
    · rw [StackTrie.run, foldlM_cons, StackTrie.apply, hupd]
      exact hrun
    · rw [map_cons, foldl_cons, TrieOp.effect, if_neg hp.2.1]
      exact hinv'

section
omit [Crypto]

theorem Ascending.nodup (h : Ascending pairs) : (pairs.map Prod.fst).Nodup := by
  rw [Nodup, pairwise_map]
  refine h.imp fun hlt heq => ?_
  rw [heq] at hlt
  exact List.lt_irrefl _ hlt.1

/-- With a pair the tree is not empty. -/
theorem ne_nil_of_pairs (hasc : Ascending pairs) (hvalid : ∀ p ∈ pairs, ValidPair p)
    (hne : pairs ≠ [])
    (h : Contents t ((pairs.map fun p => TrieOp.update p.1 p.2).foldl TrieOp.effect ∅)) :
    t ≠ .nil := by
  rintro rfl
  rcases exists_mem_of_ne_nil pairs hne with ⟨p, hp⟩
  have hnone := h.lookup p.1
  rw [effect_pairs hasc.nodup fun q hq => (hvalid q hq).2.1, lookup_empty, Option.or_none] at hnone
  have hfind := Option.map_eq_none_iff.mp hnone
  rw [find?_eq_none] at hfind
  exact hfind p hp (by simp)

end

theorem StackInv.new : StackInv ∅ newStackTrie .nil := ⟨.empty, .inl ⟨rfl, rfl, rfl, rfl⟩⟩

/-! ### The reference trie -/

/-- The node set of a trie that was opened empty: the nodes of the tree. -/
theorem Changes.fresh {trie : Trie} {evs : List Event} (hch : Changes trie t evs)
    (h : TrieInv .nil m trie t) (p : Path) (n : NodeBlob) :
    (newNodeSet.recordAll evs).nodes.lookup p = some n ↔
      ∃ u, Stored t p u ∧ n = ⟨keccak256 (enc u), enc u⟩ := by
  have hnone : ∀ p, p ∉ trie.tracers.prevalues := by
    intro p hp
    rcases Option.isSome_iff_exists.mp (lookup_isSome.mpr hp) with ⟨b, hb⟩
    rcases h.genuine p b hb with ⟨u, hu, -⟩
    exact hu.of_nil
  have hfun := hch.functional h
  -- what is recorded at a path is the node there
  have hrecorded : ∀ {n : NodeBlob}, (newNodeSet.recordAll evs).nodes.lookup p = some n →
      ∃ u, Stored t p u ∧ n = ⟨keccak256 (enc u), enc u⟩ := by
    intro n hn
    by_cases hp : ∃ e, .node p e ∈ evs
    · rcases hp with ⟨e, he⟩
      rw [(recordAll_of_mem hfun he newNodeSet).1, Option.some.injEq] at hn
      rcases (hch p e).mp he with ⟨-, hprev, -⟩ | ⟨hv, u, hu, hce⟩
      · exact absurd hprev (hnone p)
      rcases isNode_iff.mp (h.rep.visits h.sound hv).1 with ⟨u', hu', hplain⟩
      rw [hu] at hu'
      cases hu'
      have hzero : ¬ (prevalue trie.tracers.prevalues p).length ≠ 0 := by
        rw [prevalue, lookup_eq_none.mpr (hnone p)]
        simp
      rw [change] at hce
      split at hce
      · rename_i hkeep
        cases hce
        rw [Bool.or_eq_true, List.isEmpty_iff, standalone_iff] at hkeep
        exact ⟨u, ⟨hu, hplain, hkeep.imp_right And.right⟩, hn.symm⟩
      · cases hce
    · rw [(recordAll_of_notMem (fun e he => hp ⟨e, he⟩) newNodeSet).1] at hn
      cases hn
  refine ⟨hrecorded, ?_⟩
  rintro ⟨u, hu, rfl⟩
  have hempty : Exact (fun _ => none) .nil :=
    fun p b => iff_of_false (by simp) fun hu => hu.choose_spec.1.of_nil
  have hdb := ((hch.exact h hempty) p (enc u)).mpr ⟨u, hu, rfl⟩
  rw [NodeSet.applyTo] at hdb
  cases hn : (newNodeSet.recordAll evs).nodes.lookup p with
  | none =>
    rw [hn] at hdb
    cases hdb
  | some n =>
    rcases hrecorded hn with ⟨u', hu', rfl⟩
    have heq := hu.1.symm.trans hu'.1
    cases heq
    rfl

theorem reported_iff_stored {e : Emission} :
    Reported t [] e ↔ ∃ u, Stored t e.path u ∧ (⟨e.hash, e.blob⟩ : NodeBlob) =
      ⟨keccak256 (enc u), enc u⟩ := by
  constructor
  · rintro ⟨q, u, hu, hplain, hown, rfl⟩
    exact ⟨u, ⟨hu, hplain, hown⟩, rfl⟩
  · rintro ⟨u, ⟨hu, hplain, hown⟩, heq⟩
    rw [NodeBlob.mk.injEq] at heq
    refine ⟨e.path, u, hu, hplain, hown, ?_⟩
    rw [nil_append, ← heq.1, ← heq.2]

/-- **The stack trie agrees with the trie.**  Ascending keys, none a prefix of another, are
    all accepted.  `Hash` is the hash of an empty trie into which the pairs are inserted, and
    the nodes that are reported are the nodes that `Commit` of that trie writes, the root
    always among them. -/
theorem stackTrie_agrees {pairs : List (Bytes × Bytes)} (hasc : Ascending pairs)
    (hvalid : ∀ p ∈ pairs, ValidPair p) {r : Reader} {fresh : Trie}
    (hnew : newTrie emptyRootHash r = .ok fresh) :
    ∃ st st' h trie trie', newStackTrie.run pairs = some st ∧ st.hash = some (h, st') ∧
      fresh.run (pairs.map fun p => .update p.1 p.2) = some trie ∧ trie.hash = some (h, trie') ∧
      (∀ (ord : RangeOrder Path) (schedule : List Nibble) (collectLeaf : Bool),
        schedule.Perm childIndices → ∃ set trie'',
          trie.commit ord schedule collectLeaf = some ((h, set), trie'') ∧
          ∀ e : Emission, e ∈ st'.emitted ↔
            ∃ s, set = some s ∧ s.nodes.lookup e.path = some ⟨e.hash, e.blob⟩) ∧
      (pairs ≠ [] → ∃ blob, ⟨[], h, blob⟩ ∈ st'.emitted) := by
  rcases StackInv.new.run hasc hvalid fun _ _ => .inl ⟨rfl, rfl⟩ with ⟨st, t, hrun, hinv⟩
  rcases hinv.hash with ⟨st', hhash, hemit⟩
  rcases (Opened.empty (.inr rfl) hnew).inv with ⟨hfresh, -, rfl⟩
  have hops : ∀ op ∈ pairs.map fun p => TrieOp.update p.1 p.2, op.Valid := by
    intro op hop
    rcases mem_map.mp hop with ⟨p, hp, rfl⟩
    exact ⟨(hvalid p hp).1.2, (hvalid p hp).2.2⟩
  rcases hfresh.run (complete_nil _) hops with ⟨trie, t', hrun', -, hinv'⟩
  cases hinv'.contents.unique hinv.contents
  rcases hinv'.toHolds.hash with ⟨trie', hhash', -⟩
  refine ⟨st, st', rootHash t, trie, trie', hrun, hhash, hrun', hhash',
    fun ord schedule collectLeaf hschedule => ?_, fun hne => ?_⟩
  · rcases hinv'.commit collectLeaf ord with ⟨trie₁, evs, quiet, h₁, hch, hres⟩
    rcases hres.result (100 < trie.uncommitted) ord schedule hschedule with
      ⟨evs₁, trie₂, hperm, hcommit⟩
    have hch₁ : Changes trie₁ t evs₁ := fun p e => (hperm.mem_iff).trans (hch p e)
    refine ⟨_, trie₂, hcommit, fun e => ?_⟩
    rw [hemit e, reported_iff_stored, ← hch₁.fresh h₁]
    cases quiet with
    | false => simp
    | true =>
      rw [hres.unchanged rfl, perm_nil] at hperm
      subst hperm
      simp [NodeSet.recordAll, newNodeSet]
  · have ht := ne_nil_of_pairs hasc hvalid hne hinv.contents
    have hplain := Canonical.isPlain (hinv.contents.canonical.resolve_left ht)
    refine ⟨enc t, (hemit _).mpr (reported_iff_stored.mpr ⟨t, ⟨sub_here t, hplain, .inl rfl⟩, ?_⟩)⟩
    rw [rootHash_of_ne ht]

omit [Crypto] in
theorem stackTrie_agrees_three :
    letI := numberCrypto
    ∃ (st st' : StackTrie) (h : Hash) (blob : Bytes),
      newStackTrie.run [([0x12, 0x34], [7]), ([0x12, 0x56], List.replicate 40 9), ([0x20], [8])] =
        some st ∧ st.hash = some (h, st') ∧ ⟨[], h, blob⟩ ∈ st'.emitted := by
  let _ : Crypto := numberCrypto
  have hasc : Ascending [([0x12, 0x34], [7]), ([0x12, 0x56], replicate 40 9), ([0x20], [8])] := by
    unfold Ascending
    decide
  have hvalid : ∀ p ∈ [([0x12, 0x34], [7]), ([0x12, 0x56], replicate 40 9), ([0x20], [8])],
      ValidPair p := by
    simp [ValidPair, ValidKey, ValidValue]
  obtain ⟨fresh, hnew⟩ : ∃ fresh, newTrie emptyRootHash (fun _ _ => none) = .ok fresh :=
    ⟨_, if_neg fun h => h.2 rfl⟩
  rcases stackTrie_agrees hasc hvalid hnew with ⟨st, st', h, -, -, hrun, hhash, -, -, -, hroot⟩
  rcases hroot (cons_ne_nil _ _) with ⟨blob, hblob⟩
  exact ⟨st, st', h, blob, hrun, hhash, hblob⟩

end

end GethArb.MPT
