/-
  **Runs of a trie.**  A trie is opened over a database and then read, changed and hashed
  in any order.  `Contents` ties the abstract trie to the finite map of byte keys it
  stands for, `TrieInv` is what every call keeps, and `trie_canonical` collects what a run
  leaves: the map the calls describe, in minimal form, with the hash of that map.
-/
import GethArb.TrieDelete
import GethArb.TrieHash

namespace GethArb.MPT

open Patricia Finmap List Option GoMap

/-! ### Contents -/

/-- Keys and values that are slices. -/
def ValidKey (key : Bytes) : Prop := key.length < 2 ^ 62

def ValidValue (value : Bytes) : Prop := value.length < 2 ^ 63

/-- The finite map of byte keys a tree stands for. -/
structure Contents (t : Tree) (m : GoMap Bytes Bytes) : Prop where
  canonical : CanonicalRoot t
  keys : ∀ k v, t.lookup k = some v → ∃ key, k = keybytesToHex key
  lookup : ∀ key, m.lookup key = (t.lookup (keybytesToHex key)).map Subtype.val
  valid : ∀ key ∈ m, ValidKey key

theorem Contents.empty : Contents .nil ∅ where
  canonical := .inl rfl
  keys := nofun
  lookup key := lookup_empty key
  valid _ h := absurd h notMem_empty

variable {m : GoMap Bytes Bytes}

theorem Contents.bounded {t : Tree} (h : Contents t m) : Bounded t := by
  intro k v hk
  rcases h.keys k v hk with ⟨key, rfl⟩
  have hmem : key ∈ m := by
    rw [← lookup_isSome, h.lookup, hk]
    rfl
  have := h.valid key hmem
  unfold ValidKey at this
  rw [length_keybytesToHex]
  omega

theorem Contents.base {t : Tree} (h : Contents t m) : Base t :=
  ⟨h.canonical, h.bounded⟩

/-- The map determines the tree. -/
theorem Contents.unique {t t' : Tree} (h : Contents t m) (h' : Contents t' m) : t = t' := by
  refine h.canonical.ext_lookup h'.canonical (funext fun k => ?_)
  have hsub : ∀ {t t' : Tree}, Contents t m → Contents t' m → ∀ v, t.lookup k = some v →
      t'.lookup k = some v := by
    intro t t' h h' v hk
    rcases h.keys k v hk with ⟨key, rfl⟩
    have heq := (h.lookup key).symm.trans (h'.lookup key)
    rw [hk] at heq
    cases hk' : t'.lookup (keybytesToHex key) with
    | none =>
      rw [hk'] at heq
      cases heq
    | some w =>
      rw [hk'] at heq
      simp only [map_some, Option.some.injEq] at heq
      rw [Subtype.ext heq]
  exact ext fun v => ⟨hsub h h' v, hsub h' h v⟩

theorem Contents.insert {t : Tree} (h : Contents t m) {key : Bytes} (hkey : ValidKey key)
    (v : Value) : Contents (t.insert (keybytesToHex key) v) (m.insert key v.val) := by
  have hterm := terminated_keybytesToHex key
  refine ⟨.inr (h.canonical.insert hterm v), ?_, ?_, ?_⟩
  · intro k w hk
    rw [h.canonical.shaped.lookup_insert hterm] at hk
    split at hk
    · exact ⟨key, ‹_›⟩
    · exact h.keys k w hk
  · intro j
    simp only [h.canonical.shaped.lookup_insert hterm, lookup_insert_ite, keybytesToHex_inj]
    split
    · rfl
    · exact h.lookup j
  · intro j hj
    rcases mem_insert.mp hj with rfl | hj
    · exact hkey
    · exact h.valid j hj

theorem Contents.delete {t : Tree} (h : Contents t m) (key : Bytes) :
    Contents (t.delete (keybytesToHex key)) (m.erase key) := by
  have hterm := terminated_keybytesToHex key
  refine ⟨h.canonical.delete hterm, ?_, ?_, ?_⟩
  · intro k w hk
    rw [h.canonical.shaped.lookup_delete hterm] at hk
    split at hk
    · cases hk
    · exact h.keys k w hk
  · intro j
    simp only [h.canonical.shaped.lookup_delete hterm, lookup_erase_ite, keybytesToHex_inj]
    split
    · rfl
    · exact h.lookup j
  · intro j hj
    exact h.valid j (mem_erase.mp hj).2

/-! ### Minimal form -/

/-- No short node has a short node below it, and every full node has two children. -/
def Minimal : Node → Prop
  | .short _ val _ => (∀ key v fl, val ≠ .short key v fl) ∧ Minimal val
  | .full children _ =>
    (∃ a b, a ≠ b ∧ (children a).isNil = false ∧ (children b).isNil = false) ∧
      ∀ i, Minimal (children i)
  | _ => True

variable [Crypto]

theorem Rep.minimal {T₀ : Tree} {n : Node} {root : Bool} {pre : Path} {t : Tree}
    (h : Rep T₀ n root pre t) (ht : IsValue t ∨ Canonical t) : Minimal n := by
  induction n generalizing root pre t with
  | nil | value v | hash h => trivial
  | short key val fl ih =>
    rcases h with ⟨c, rfl, hrep, -⟩
    rcases ht with hv | hc
    · exact absurd hv (not_isValue_short key c)
    cases hc with
    | leaf v hkey =>
      refine ⟨?_, ih hrep (.inl (.inr ⟨v, rfl⟩))⟩
      rintro key' v' fl' rfl
      rcases hrep with ⟨c', hc', -⟩
      cases hc'
    | ext _ _ hfull =>
      refine ⟨?_, ih hrep (.inr hfull)⟩
      rintro key' v' fl' rfl
      rcases hrep with ⟨c', hc', -⟩
      cases hc'
  | full children fl ih =>
    rcases h with ⟨ts, rfl, hrep, -⟩
    rcases ht with hv | hc
    · exact absurd hv (not_isValue_full ts)
    have hnil : ∀ i, ts i ≠ .nil → (children i).isNil = false := by
      intro i hi
      rw [← Bool.not_eq_true, (hrep i).isNil_iff]
      exact hi
    cases hc with
    | branch hchild hlast htwo =>
      rcases htwo with ⟨a, b, hab, ha, hb⟩
      refine ⟨⟨a, b, hab, hnil a ha, hnil b hb⟩, fun i => ih i (hrep i) ?_⟩
      by_cases hi : i = Fin.last 16
      · subst hi
        exact .inl hlast
      · by_cases hn : ts i = .nil
        · exact .inl (.inl hn)
        · exact .inr (hchild i hi hn)

/-! ### The invariant -/

/-- `Hash` of a tree. -/
def rootHash (t : Tree) : Hash := if t.isNil then emptyRootHash else keccak256 (enc t)

theorem rootHash_of_ne {t : Tree} (h : t ≠ .nil) : rootHash t = keccak256 (enc t) :=
  if_neg fun hn => h (isNil_iff.mp hn)

/-- A trie over a database with `T₀` that stands for the map `m`. -/
structure Holds (T₀ : Tree) (m : GoMap Bytes Bytes) (trie : Trie) (t : Tree) : Prop where
  base : Base T₀
  open_ : trie.committed = false
  contents : Contents t m
  rep : Rep T₀ trie.root true [] t

/-- A trie whose tracers are right as well. -/
structure TrieInv (T₀ : Tree) (m : GoMap Bytes Bytes) (trie : Trie) (t : Tree) : Prop extends
    Holds T₀ m trie t where
  traced : Traced T₀ [] trie.root t trie.tracers
  genuine : Genuine T₀ trie.tracers.prevalues

section
variable {T₀ t : Tree} {m : GoMap Bytes Bytes} {trie : Trie}

section
omit [Crypto]

theorem Contents.fits (h : Contents t m) (key : Bytes) : Fits t (keybytesToHex key) :=
  .inr ⟨terminated_keybytesToHex key, h.canonical.shaped⟩

theorem need_le_depth (n : Node) (key : Bytes) :
    need n (keybytesToHex key) ≤ depth (keybytesToHex key) :=
  need_le n _

end

/-- The tracers stay right. -/
def Follows (T₀ : Tree) (trie : Trie) (t : Tree) (trie' : Trie) (t' : Tree) : Prop :=
  Traced T₀ [] trie.root t trie.tracers ∧ Genuine T₀ trie.tracers.prevalues →
    Traced T₀ [] trie'.root t' trie'.tracers ∧ Genuine T₀ trie'.tracers.prevalues

theorem TrieInv.follows {m' : GoMap Bytes Bytes} {trie' : Trie} {t' : Tree}
    (h : TrieInv T₀ m trie t) (h' : Holds T₀ m' trie' t') (hf : Follows T₀ trie t trie' t') :
    TrieInv T₀ m' trie' t' :=
  ⟨h', (hf ⟨h.traced, h.genuine⟩).1, (hf ⟨h.traced, h.genuine⟩).2⟩

variable (h : Holds T₀ m trie t)
include h

/-- `Get` finds what the map has, if it can read the nodes it needs. -/
theorem Holds.get (hr : Faithful trie.reader T₀) (key : Bytes) :
    ∃ res trie', trie.get key = some (res, trie') ∧ trie'.reader = trie.reader ∧
      Holds T₀ m trie' t ∧ Follows T₀ trie t trie' t ∧
      match res with
      | .ok v => v = m.lookup key
      | .error e => Missing T₀ trie.reader [] (keybytesToHex key) e := by
  rcases get_spec h.base hr (need_le_depth trie.root key) h.rep (h.contents.fits key)
    trie.tracers with ⟨res, tr', hget, hmove, hops, hspec⟩
  unfold Trie.get
  rw [h.open_]
  simp only [hget, bind, Option.bind]
  cases res with
  | error e =>
    refine ⟨_, _, rfl, rfl, ⟨h.base, rfl, h.contents, h.rep⟩, ?_, hspec⟩
    rintro ⟨htr, hg⟩
    refine ⟨⟨?_, htr.seen.mono hmove.grows fun _ h => h⟩, hmove.genuine hg⟩
    simpa only [hops] using htr.tracked
  | ok out =>
    rcases out with ⟨v, n', did⟩
    rcases hspec with ⟨rfl, hrep, hseen, -, hsame⟩
    have hroot : (if did = true then n' else trie.root) = n' := by
      cases did with
      | true => rfl
      | false => exact (hsame rfl).symm
    simp only [hroot]
    refine ⟨_, _, rfl, rfl, ⟨h.base, rfl, h.contents, hrep⟩, ?_, (h.contents.lookup key).symm⟩
    rintro ⟨htr, hg⟩
    refine ⟨⟨?_, hseen htr.seen⟩, hmove.genuine hg⟩
    simpa only [hops] using htr.tracked

/-- `Hash` is the hash of the map. -/
theorem Holds.hash :
    ∃ trie', trie.hash = some (rootHash t, trie') ∧ trie'.reader = trie.reader ∧
      Holds T₀ m trie' t ∧ Follows T₀ trie t trie' t ∧ Hashed trie'.root t ∧
      (trie.root.isNil = false → trie'.root.cache.1 = some (rootHash t)) := by
  have hnil := h.rep.isNil
  unfold Trie.hash rootHash
  by_cases ht : trie.root.isNil = true
  · rw [if_pos ht]
    rw [hnil] at ht
    refine ⟨trie, by rw [if_pos ht], rfl, h, id, ?_, fun hf => ?_⟩
    · have hroot : trie.root = .nil := Node.isNil_iff.mp (hnil.trans ht)
      rw [hroot]
      trivial
    · rw [hnil, ht] at hf
      cases hf
  · rw [if_neg ht]
    rw [hnil] at ht
    have hne : t ≠ .nil := fun heq => ht (isNil_iff.mpr heq)
    rcases hashNode_spec h.rep h.contents.canonical.shaped hne with ⟨n', hhash, hspec⟩
    simp only [hhash, bind, Option.bind, hashRef, if_true, bytesToHash_hashBytes, if_neg ht]
    refine ⟨_, rfl, rfl, ⟨h.base, h.open_, h.contents, hspec.rep⟩, ?_, hspec.hashed,
      fun _ => hspec.root rfl⟩
    rintro ⟨htr, hg⟩
    exact ⟨⟨htr.tracked, htr.seen.mono (fun _ h => h) fun q hq => (hspec.hidden q).mpr hq⟩, hg⟩

/-- `Delete` removes the key, if it can read the nodes it needs. -/
theorem Holds.delete (hr : Faithful trie.reader T₀) (key : Bytes) :
    ∃ res trie', trie.delete key = some (res, trie') ∧ trie'.reader = trie.reader ∧
      match res with
      | .ok () => Holds T₀ (m.erase key) trie' (t.delete (keybytesToHex key)) ∧
        Follows T₀ trie t trie' (t.delete (keybytesToHex key))
      | .error e => trie'.committed = false ∧
        DeleteError T₀ trie.reader [] trie.root t (keybytesToHex key) e trie'.root := by
  rcases delete_spec h.base hr (need_le_depth trie.root key) h.rep
    (.inr ⟨terminated_keybytesToHex key, h.contents.canonical⟩) trie.tracers with
      ⟨out, tr', hdel, hmove, hspec⟩
  unfold Trie.delete
  rw [h.open_]
  simp only [hdel]
  cases out with
  | err e left => exact ⟨_, _, rfl, rfl, rfl, hspec⟩
  | ok dirty n' =>
    exact ⟨_, _, rfl, rfl, ⟨h.base, rfl, h.contents.delete key, hspec.1⟩,
      fun hf => ⟨hspec.2.1 hf.1, hmove.genuine hf.2⟩⟩

/-- `Update` with a value inserts it, if it can read the nodes it needs; with an empty
    value it deletes the key. -/
theorem Holds.update (hr : Faithful trie.reader T₀) {key : Bytes} (hkey : ValidKey key)
    (v : Value) :
    ∃ res trie', trie.update key v.val = some (res, trie') ∧ trie'.reader = trie.reader ∧
      match res with
      | .ok () => Holds T₀ (m.insert key v.val) trie' (t.insert (keybytesToHex key) v) ∧
        Follows T₀ trie t trie' (t.insert (keybytesToHex key) v)
      | .error e => trie'.committed = false ∧ trie'.root = trie.root ∧
        Missing T₀ trie.reader [] (keybytesToHex key) e := by
  rcases insert_spec h.base hr v (need_le_depth trie.root key) h.rep (h.contents.fits key)
    trie.tracers with ⟨out, tr', hins, hmove, hspec⟩
  have hlen : v.val.length ≠ 0 := fun hzero => v.prop.1 (length_eq_zero_iff.mp hzero)
  unfold Trie.update
  rw [h.open_]
  simp only [hlen, ne_eq, hins]
  cases out with
  | err e left => exact ⟨_, _, rfl, rfl, rfl, hspec.1, hspec.2⟩
  | ok dirty n' =>
    exact ⟨_, _, rfl, rfl, ⟨h.base, rfl, h.contents.insert hkey v, hspec.1⟩,
      fun hf => ⟨hspec.2.1 hf.1, hmove.genuine hf.2⟩⟩

end

/-! ### Opening -/

/-- A trie opened at the empty root, or at the root of a tree the database has nodes of. -/
inductive Opened (r : Reader) : Tree → GoMap Bytes Bytes → Trie → Prop
  | empty {root : Hash} {trie : Trie} : root = 0 ∨ root = emptyRootHash →
      newTrie root r = .ok trie → Opened r .nil ∅ trie
  | present {T₀ : Tree} {m : GoMap Bytes Bytes} {trie : Trie} : T₀ ≠ .nil → Contents T₀ m →
      Faithful r T₀ → rootHash T₀ ≠ 0 → rootHash T₀ ≠ emptyRootHash →
      newTrie (rootHash T₀) r = .ok trie → Opened r T₀ m trie

variable {u T₀ t : Tree}

theorem Stored.of_nil {p : Path} (h : Stored .nil p u) : False := by
  cases p with
  | nil =>
    have hu := h.1
    cases hu
    cases h.2.1
  | cons a p => cases h.1

theorem complete_nil (r : Reader) : Complete r .nil :=
  fun _ _ hu => hu.of_nil.elim

variable {m : GoMap Bytes Bytes} {trie : Trie}
variable {r : Reader}

theorem Opened.inv (h : Opened r T₀ m trie) :
    TrieInv T₀ m trie T₀ ∧ Faithful r T₀ ∧ trie.reader = r := by
  have hnone : Genuine T₀ newTracers.prevalues := by
    intro p b hb
    simp [newTracers] at hb
  cases h with
  | @empty root trie hroot hnew =>
    have hcond : ¬ (root ≠ 0 ∧ root ≠ emptyRootHash) := by tauto
    rw [newTrie, if_neg hcond] at hnew
    cases hnew
    refine ⟨⟨⟨Contents.empty.base, rfl, .empty, rfl⟩, ⟨?_, ?_⟩, hnone⟩,
      (complete_nil r).faithful, rfl⟩
    · intro q
      simp [newTracers]
    · exact fun q u hu => hu.of_nil.elim
  | present hne hc hr h0 hempty hnew =>
    have hroot := rootHash_of_ne hne
    have hcan := hc.canonical.resolve_left hne
    have hst : Stored T₀ [] T₀ := ⟨sub_here T₀, Canonical.isPlain hcan, .inl rfl⟩
    rw [newTrie, if_pos ⟨h0, hempty⟩, hroot] at hnew
    rcases resolveAndTrack_spec hc.base hr hst newTracers with ⟨-, hres⟩ | ⟨-, hres⟩
    · rw [hres] at hnew
      cases hnew
    rw [hres] at hnew
    cases hnew
    refine ⟨⟨⟨hc.base, rfl, hc, ?_⟩, ⟨?_, ?_⟩, (Moves.put hst newTracers).genuine hnone⟩,
      hr, rfl⟩
    · exact rep_load hcan (sub_here T₀) fun h hh => by
        cases hh
        exact ⟨rfl, nofun⟩
    · intro q
      simp [newTracers, Tracers.put]
    · exact seen_load hcan (sub_here T₀) _ _ _

/-- A root that is in the database can be opened. -/
theorem exists_opened (hne : T₀ ≠ .nil) (hc : Contents T₀ m) (hr : Complete r T₀)
    (h0 : rootHash T₀ ≠ 0) (hempty : rootHash T₀ ≠ emptyRootHash) : ∃ trie, Opened r T₀ m trie := by
  have hroot := rootHash_of_ne hne
  have hcan := hc.canonical.resolve_left hne
  have hst : Stored T₀ [] T₀ := ⟨sub_here T₀, Canonical.isPlain hcan, .inl rfl⟩
  rcases resolveAndTrack_spec hc.base hr.faithful hst newTracers with ⟨hnone, -⟩ | ⟨-, hres⟩
  · rw [hr [] T₀ hst] at hnone
    cases hnone
  · have hnew : newTrie (rootHash T₀) r = .ok ⟨load T₀ (some (keccak256 (enc T₀))), false, 0, 0, r,
        newTracers.put [] (enc T₀)⟩ := by
      rw [newTrie, if_pos ⟨h0, hempty⟩, hroot, hres]
    exact ⟨_, .present hne hc hr.faithful h0 hempty hnew⟩

/-- The database that has the nodes of one tree. -/
def readerOf (T₀ : Tree) : Reader := fun p h =>
  (T₀.sub p).bind fun u => if keccak256 (enc u) = h then some (enc u) else none

theorem complete_readerOf (T₀ : Tree) : Complete (readerOf T₀) T₀ := by
  intro p u hu
  simp [readerOf, hu.1]

/-! ### Runs -/

inductive TrieOp where
  | update (key val : Bytes)
  | delete (key : Bytes)
  | get (key : Bytes)
  | hash

def TrieOp.Valid : TrieOp → Prop
  | .update key val => ValidKey key ∧ ValidValue val
  | .delete key => ValidKey key
  | .get key => ValidKey key
  | .hash => True

/-- What a call means for the map. -/
def TrieOp.effect (m : GoMap Bytes Bytes) : TrieOp → GoMap Bytes Bytes
  | .update key val => if val = [] then m.erase key else m.insert key val
  | .delete key => m.erase key
  | .get _ => m
  | .hash => m

/-- A call that succeeds. -/
def Trie.apply (trie : Trie) (op : TrieOp) : Option Trie :=
  match op with
  | .update key val =>
    match trie.update key val with
    | some (.ok (), trie) => some trie
    | _ => none
  | .delete key =>
    match trie.delete key with
    | some (.ok (), trie) => some trie
    | _ => none
  | .get key =>
    match trie.get key with
    | some (.ok _, trie) => some trie
    | _ => none
  | .hash =>
    match trie.hash with
    | some (_, trie) => some trie
    | none => none

/-- A run of calls that all succeed. -/
def Trie.run (trie : Trie) (ops : List TrieOp) : Option Trie := ops.foldlM Trie.apply trie

/-- A complete database has every node. -/
theorem Complete.not_missing (h : Complete r T₀) {p : Path} (hst : Stored T₀ p u) :
    r p (keccak256 (enc u)) ≠ none := by
  rw [h p u hst]
  simp

/-- What a call does: it succeeds and does to the map what it says, or a node is missing. -/
def CallSpec (T₀ : Tree) (trie : Trie) (t : Tree) (m' : GoMap Bytes Bytes) (res : Option Trie) :
    Prop :=
  (∃ trie' t', res = some trie' ∧ trie'.reader = trie.reader ∧ Holds T₀ m' trie' t' ∧
    Follows T₀ trie t trie' t') ∨
  res = none ∧ ∃ p u, Stored T₀ p u ∧ trie.reader p (keccak256 (enc u)) = none

theorem Holds.delete_call (h : Holds T₀ m trie t) (hr : Faithful trie.reader T₀) (key : Bytes) :
    CallSpec T₀ trie t (m.erase key) (trie.apply (.delete key)) := by
  rcases h.delete hr key with ⟨res, trie', hres, hreader, hspec⟩
  rw [Trie.apply, hres]
  cases res with
  | ok => exact .inl ⟨trie', _, rfl, hreader, hspec⟩
  | error e =>
    rcases hspec with ⟨-, p, u, hst, -, hnone, -⟩
    exact .inr ⟨rfl, p, u, hst, hnone⟩

open TrieOp

theorem Holds.apply (h : Holds T₀ m trie t) (hr : Faithful trie.reader T₀) {op : TrieOp}
    (hop : op.Valid) : CallSpec T₀ trie t (op.effect m) (trie.apply op) := by
  cases op with
  | update key val =>
    by_cases hnil : val = []
    · subst hnil
      exact h.delete_call hr key
    rw [effect, if_neg hnil]
    rcases h.update hr hop.1 ⟨val, hnil, hop.2⟩ with ⟨res, trie', hres, hreader, hspec⟩
    rw [Trie.apply, hres]
    cases res with
    | ok => exact .inl ⟨trie', _, rfl, hreader, hspec⟩
    | error e =>
      rcases hspec with ⟨-, -, p, u, hst, -, hnone, -⟩
      exact .inr ⟨rfl, p, u, hst, hnone⟩
  | delete key => exact h.delete_call hr key
  | get key =>
    rcases h.get hr key with ⟨res, trie', hres, hreader, hholds, hf, hspec⟩
    rw [Trie.apply, hres]
    cases res with
    | ok v => exact .inl ⟨trie', t, rfl, hreader, hholds, hf⟩
    | error e =>
      rcases hspec with ⟨p, u, hst, -, hnone, -⟩
      exact .inr ⟨rfl, p, u, hst, hnone⟩
  | hash =>
    rcases h.hash with ⟨trie', hres, hreader, hholds, hf, -⟩
    rw [Trie.apply, hres]
    exact .inl ⟨trie', t, rfl, hreader, hholds, hf⟩

/-- **One call.**  With all nodes in the database it succeeds and does to the map what it
    says. -/
theorem TrieInv.apply (h : TrieInv T₀ m trie t) (hr : Complete trie.reader T₀) {op : TrieOp}
    (hop : op.Valid) :
    ∃ trie' t', trie.apply op = some trie' ∧ trie'.reader = trie.reader ∧
      TrieInv T₀ (op.effect m) trie' t' := by
  rcases h.toHolds.apply hr.faithful hop with
    ⟨trie', t', hres, hreader, hholds, hf⟩ | ⟨-, p, u, hst, hnone⟩
  · exact ⟨trie', t', hres, hreader, h.follows hholds hf⟩
  · exact absurd hnone (hr.not_missing hst)

/-- **A run.**  Every call succeeds, and the trie stands for the map the calls describe. -/
theorem TrieInv.run (h : TrieInv T₀ m trie t) (hr : Complete trie.reader T₀) {ops : List TrieOp}
    (hops : ∀ op ∈ ops, op.Valid) :
    ∃ trie' t', trie.run ops = some trie' ∧ trie'.reader = trie.reader ∧
      TrieInv T₀ (ops.foldl effect m) trie' t' := by
  induction ops generalizing trie t m with
  | nil => exact ⟨trie, t, rfl, rfl, h⟩
  | cons op ops ih =>
    rcases h.apply hr (hops op mem_cons_self) with ⟨trie₁, t₁, happly, hreader, hinv⟩
    rw [← hreader] at hr
    rcases ih hinv hr fun op hop => hops op (mem_cons_of_mem _ hop) with
      ⟨trie', t', hrun, hreader', hinv'⟩
    refine ⟨trie', t', ?_, hreader'.trans hreader, hinv'⟩
    rw [Trie.run, foldlM_cons, happly]
    exact hrun

/-! ### Canonicity -/

/-- The pairs are those of the map. -/
def Lists (pairs : List (Bytes × Bytes)) (m : GoMap Bytes Bytes) : Prop :=
  (pairs.map Prod.fst).Nodup ∧ ∀ k v, (k, v) ∈ pairs ↔ m.lookup k = some v

variable {pairs : List (Bytes × Bytes)}

section
omit [Crypto]

/-- Inserting the pairs of a map into an empty map. -/
theorem effect_pairs (hnodup : (pairs.map Prod.fst).Nodup) (hne : ∀ p ∈ pairs, p.2 ≠ [])
    (m : GoMap Bytes Bytes) (j : Bytes) :
    ((pairs.map fun p => update p.1 p.2).foldl effect m).lookup j =
      ((pairs.find? fun p => p.1 = j).map Prod.snd).or (m.lookup j) := by
  induction pairs generalizing m with
  | nil => rfl
  | cons p pairs ih =>
    rw [map_cons, nodup_cons] at hnodup
    rw [map_cons, foldl_cons, ih hnodup.2 fun p hp => hne p (mem_cons_of_mem _ hp)]
    rw [effect, if_neg (hne p mem_cons_self), lookup_insert_ite]
    by_cases hj : p.1 = j
    · have hnone : pairs.find? (fun p => p.1 = j) = none := by
        rw [find?_eq_none]
        intro q hq hqj
        rw [decide_eq_true_eq] at hqj
        exact hnodup.1 (mem_map.mpr ⟨q, hq, hqj.trans hj.symm⟩)
      rw [hnone, find?_cons_of_pos (by simpa using hj), if_pos hj.symm]
      rfl
    · rw [find?_cons_of_neg (by simpa using hj), if_neg (Ne.symm hj)]

theorem Lists.effect (h : Lists pairs m) (hne : ∀ p ∈ pairs, p.2 ≠ []) :
    (pairs.map fun p => update p.1 p.2).foldl effect ∅ = m := by
  refine ext_lookup fun j => ?_
  rw [effect_pairs h.1 hne]
  cases hfind : pairs.find? fun p => p.1 = j with
  | none =>
    rw [find?_eq_none] at hfind
    cases hm : m.lookup j with
    | none => rfl
    | some v => exact absurd (by simp) (hfind (j, v) ((h.2 j v).mpr hm))
  | some p =>
    have hmem := mem_of_find?_eq_some hfind
    have hp : p.1 = j := by simpa using find?_some hfind
    rw [← hp]
    exact ((h.2 p.1 p.2).mp hmem).symm

/-- The values of a trie are values. -/
theorem Contents.value (h : Contents t m) {key v : Bytes} (hm : m.lookup key = some v) :
    ValidKey key ∧ v ≠ [] ∧ ValidValue v := by
  refine ⟨h.valid key (lookup_isSome.mp (by rw [hm]; rfl)), ?_⟩
  rw [h.lookup] at hm
  rcases map_eq_some_iff.mp hm with ⟨w, -, rfl⟩
  exact w.prop

end

/-- **The trie is canonical.**  Whatever calls are made on a trie opened at the empty root
    or at a root that is fully in the database, they succeed, and afterwards `Get` gives the
    values of the map they describe, the nodes in memory are in minimal form, and `Hash`
    is the hash of a fresh trie into which the pairs of that map are inserted, in whatever
    order. -/
theorem trie_canonical {r : Reader} {T₀ : Tree} {m : GoMap Bytes Bytes} {trie : Trie}
    (hopen : Opened r T₀ m trie) (hcomplete : Complete r T₀) {ops : List TrieOp}
    (hops : ∀ op ∈ ops, op.Valid) :
    ∃ trie', trie.run ops = some trie' ∧
      (∀ key, ∃ trie'', trie'.get key =
        some (.ok ((ops.foldl TrieOp.effect m).lookup key), trie'')) ∧
      Minimal trie'.root ∧
      ∀ (r' : Reader) (pairs : List (Bytes × Bytes)), Lists pairs (ops.foldl TrieOp.effect m) →
        ∃ fresh fresh' h trie'' fresh'', newTrie emptyRootHash r' = .ok fresh ∧
          fresh.run (pairs.map fun p => .update p.1 p.2) = some fresh' ∧
          trie'.hash = some (h, trie'') ∧ fresh'.hash = some (h, fresh'') := by
  rcases hopen.inv with ⟨hinv, -, rfl⟩
  rcases hinv.run hcomplete hops with ⟨trie', t', hrun, hreader, hinv'⟩
  refine ⟨trie', hrun, fun key => ?_, ?_, fun r' pairs hpairs => ?_⟩
  · rw [← hreader] at hcomplete
    rcases hinv'.toHolds.get hcomplete.faithful key with ⟨res, trie'', hget, -, -, -, hspec⟩
    cases res with
    | ok v =>
      cases hspec
      exact ⟨trie'', hget⟩
    | error e =>
      rcases hspec with ⟨p, u, hst, -, hnone, -⟩
      exact absurd hnone (hcomplete.not_missing hst)
  · refine hinv'.rep.minimal ?_
    rcases hinv'.contents.canonical with h | h
    · exact .inl (.inl h)
    · exact .inr h
  · have hvalid : ∀ p ∈ pairs, ValidKey p.1 ∧ p.2 ≠ [] ∧ ValidValue p.2 := fun p hp =>
      hinv'.contents.value ((hpairs.2 p.1 p.2).mp hp)
    obtain ⟨fresh, hnew⟩ : ∃ fresh, newTrie emptyRootHash r' = .ok fresh :=
      ⟨_, if_neg fun h => h.2 rfl⟩
    rcases (Opened.empty (.inr rfl) hnew).inv with ⟨hfresh, -, rfl⟩
    have hopsFresh : ∀ op ∈ pairs.map fun p => update p.1 p.2, op.Valid := by
      intro op hop
      rcases mem_map.mp hop with ⟨p, hp, rfl⟩
      exact ⟨(hvalid p hp).1, (hvalid p hp).2.2⟩
    rcases hfresh.run (complete_nil _) hopsFresh with ⟨fresh', tf, hrunFresh, -, hinvFresh⟩
    rw [hpairs.effect fun p hp => (hvalid p hp).2.1] at hinvFresh
    rcases hinv'.toHolds.hash with ⟨trie'', hhash, -⟩
    rcases hinvFresh.toHolds.hash with ⟨fresh'', hhashFresh, -⟩
    rw [hinvFresh.contents.unique hinv'.contents] at hhashFresh
    exact ⟨fresh, fresh', _, trie'', fresh'', hnew, hrunFresh, hhash, hhashFresh⟩

omit [Crypto] in
/-- A database with one leaf, opened. -/
theorem exists_opened_leaf :
    letI := numberCrypto
    ∃ (T₀ : Tree) (trie : Trie), T₀ ≠ .nil ∧
      Opened (readerOf T₀) T₀ (Finmap.insert [0x12, 0x34] [7] ∅) trie := by
  let _ : Crypto := numberCrypto
  have hkey : ValidKey [0x12, 0x34] := by
    norm_num [ValidKey]
  have hc := Contents.empty.insert hkey ⟨[7], by decide⟩
  have hne := (CanonicalRoot.insert (.inl rfl) (terminated_keybytesToHex [0x12, 0x34])
    (⟨[7], by decide⟩ : Value)).ne_nil
  rcases exists_opened hne hc (complete_readerOf _) (by decide +kernel) (by decide +kernel) with
    ⟨trie, hopen⟩
  exact ⟨_, trie, hne, hopen⟩

omit [Crypto] in
theorem trie_canonical_reopened :
    letI := numberCrypto
    ∃ (T₀ : Tree) (trie trie' : Trie), T₀ ≠ .nil ∧
      Opened (readerOf T₀) T₀ (Finmap.insert [0x12, 0x34] [7] ∅) trie ∧
      trie.run [.update [0x12] [9], .update [0x12, 0x35] [8], .hash, .delete [0x12, 0x34],
        .get [0x12]] = some trie' ∧ Minimal trie'.root := by
  let _ : Crypto := numberCrypto
  rcases exists_opened_leaf with ⟨T₀, trie, hne, hopen⟩
  have hops : ∀ op ∈ [update [0x12] [9], .update [0x12, 0x35] [8], .hash,
      .delete [0x12, 0x34], .get [0x12]], op.Valid := by
    simp [Valid, ValidKey, ValidValue]
  rcases trie_canonical hopen (complete_readerOf _) hops with ⟨trie', hrun, -, hmin, -⟩
  exact ⟨_, trie, trie', hne, hopen, hrun, hmin⟩

/-! ### Two leaves under one full node -/

/-- Two leaves that are nodes of their own. -/
def twoLeaves : Tree :=
  ((nil : Tree).insert (keybytesToHex [0x11]) ⟨List.replicate 32 1, by decide⟩).insert
    (keybytesToHex [0x21]) ⟨List.replicate 32 2, by decide⟩

def twoPairs : GoMap Bytes Bytes :=
  (Finmap.insert [0x11] (List.replicate 32 1) ∅).insert [0x21] (List.replicate 32 2)

omit [Crypto] in
theorem contents_twoLeaves : Contents twoLeaves twoPairs := by
  have h₁ : ValidKey [0x11] := by norm_num [ValidKey]
  have h₂ : ValidKey [0x21] := by norm_num [ValidKey]
  exact (Contents.empty.insert h₁ _).insert h₂ _

end GethArb.MPT
