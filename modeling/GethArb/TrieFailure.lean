/-
  **Calls that fail.**  A call fails when the reader lacks a node.  `get` and `insert` fail
  before they change anything.  `delete` may already have removed a child of a full node
  when it finds that the last sibling, which it has to look at, cannot be read.  A full node
  that was loaded by the failing call itself is dropped with the change; one that was in
  memory before keeps it, and the key is lost.
-/
import GethArb.TrieRun

namespace GethArb.MPT

open Patricia Prod

/-! ### What does not depend on the tracers -/

section
variable (r : Reader)

/-- Two computations with the same result go on with the same result, if the
    continuation does not look at the state. -/
theorem bind_fst_congr {α β σ : Type} {x y : Option (α × σ)} {f : α × σ → Option (β × σ)}
    (h : x.map fst = y.map fst)
    (hf : ∀ a s s', (f (a, s)).map fst = (f (a, s')).map fst) :
    (x.bind f).map fst = (y.bind f).map fst := by
  rcases x with _ | ⟨a, s⟩ <;> rcases y with _ | ⟨b, s'⟩
  · rfl
  · cases h
  · cases h
  · cases h
    exact hf a s s'

theorem resolveAndTrack_fst (h : Hash) (path : Path) (tr tr' : Tracers) :
    (resolveAndTrack r h path tr).1 = (resolveAndTrack r h path tr').1 := by
  unfold resolveAndTrack
  split
  · rfl
  · split <;> rfl

/-- The answer of `get` depends on the node and the reader only. -/
theorem get_fst (fuel : Nat) (n : Node) (pre key : Path) (tr tr' : Tracers) :
    (get r fuel n pre key tr).map fst = (get r fuel n pre key tr').map fst := by
  induction fuel generalizing n pre key tr tr' with
  | zero => rfl
  | succ fuel ih =>
    cases n with
    | nil | value v => rfl
    | short nkey val flags =>
      simp only [get]
      split
      · refine bind_fst_congr (ih _ _ _ _ _) fun res s s' => ?_
        rcases res with e | ⟨v, n', did⟩ <;> rfl
      · rfl
    | full children flags =>
      cases key with
      | nil => rfl
      | cons a key =>
        refine bind_fst_congr (ih _ _ _ _ _) fun res s s' => ?_
        rcases res with e | ⟨v, n', did⟩ <;> rfl
    | hash h =>
      have hres := resolveAndTrack_fst r h pre tr tr'
      simp only [get]
      revert hres
      rcases resolveAndTrack r h pre tr with ⟨e | child, tr₁⟩ <;>
        rcases resolveAndTrack r h pre tr' with ⟨e' | child', tr₁'⟩ <;> intro hres <;> cases hres
      · rfl
      · refine bind_fst_congr (ih _ _ _ _ _) fun res s s' => ?_
        rcases res with e | ⟨v, n', did⟩ <;> rfl

end

theorem Trie.get_fst {trie trie' : Trie} (hroot : trie'.root = trie.root)
    (hreader : trie'.reader = trie.reader) (hopen : trie'.committed = trie.committed)
    (key : Bytes) : (trie'.get key).map fst = (trie.get key).map fst := by
  unfold Trie.get
  rw [hroot, hreader, hopen]
  split
  · rfl
  have hget := MPT.get_fst trie.reader (depth (keybytesToHex key)) trie.root []
    (keybytesToHex key) trie'.tracers trie.tracers
  revert hget
  simp only [bind]
  rcases MPT.get trie.reader _ trie.root [] _ trie'.tracers with _ | ⟨res, tr⟩ <;>
    rcases MPT.get trie.reader _ trie.root [] _ trie.tracers with _ | ⟨res', tr'⟩ <;>
    intro hget <;> cases hget
  · rfl
  · rcases res with e | ⟨v, n', did⟩ <;> rfl

/-! ### A lost key -/

/-- What is gone from the nodes in memory, no reader brings back. -/
theorem get_absent (r : Reader) {n : Node} {k : Path} (h : Absent n k) {fuel : Nat}
    (hfuel : need n k ≤ fuel) (pre : Path) (tr : Tracers) :
    ∃ n', get r fuel n pre k tr = some (.ok (none, n', false), tr) := by
  induction fuel generalizing n pre k with
  | zero =>
    have := need_pos n k
    omega
  | succ fuel ih =>
    cases n with
    | nil => exact ⟨_, rfl⟩
    | value v | hash h' => exact h.elim
    | short nkey val flags =>
      rcases h with ⟨hne, hbelow⟩
      simp only [get]
      by_cases hpre : nkey <+: k
      · rw [if_pos hpre]
        have hlen : (k.drop nkey.length).length < k.length := by
          have := List.length_pos_iff.mpr hne
          have := hpre.length_le
          rw [List.length_drop]
          omega
        rcases ih (hbelow hpre) (need_below hfuel hlen) (pre ++ nkey) with ⟨n', hget⟩
        simp only [hget]
        exact ⟨_, rfl⟩
      · rw [if_neg hpre]
        exact ⟨_, rfl⟩
    | full children flags =>
      cases k with
      | nil => exact h.elim
      | cons a k =>
        have hbelow : Absent (children a) k := h
        have hlen : k.length < (a :: k).length := Nat.lt_succ_self _
        rcases ih hbelow (need_below hfuel hlen) (pre ++ [a]) with ⟨n', hget⟩
        simp only [get, hget]
        exact ⟨_, rfl⟩

theorem Trie.get_absent {trie : Trie} (hopen : trie.committed = false) {key : Bytes}
    (h : Absent trie.root (keybytesToHex key)) :
    (trie.get key).map fst = some (.ok none) := by
  rcases MPT.get_absent trie.reader h (need_le_depth trie.root key) [] trie.tracers with ⟨n', hget⟩
  unfold Trie.get
  rw [hopen]
  simp [hget]

/-! ### Failing writes -/

inductive Write where
  | update (key val : Bytes)
  | delete (key : Bytes)

def Write.key : Write → Bytes
  | .update key _ => key
  | .delete key => key

def Write.Valid : Write → Prop
  | .update key val => ValidKey key ∧ ValidValue val
  | .delete key => ValidKey key

def Trie.write (trie : Trie) : Write → Option (Except TrieError Unit × Trie)
  | .update key val => trie.update key val
  | .delete key => trie.delete key

/-- The missing node is not on the way to the key, and the full node above it was in memory
    before the call. -/
def LosesKey (root : Node) (key : Bytes) (path : Path) : Prop :=
  ¬ path <+: keybytesToHex key ∧ LoadedParent root path

variable [Crypto]

section
variable {T₀ t : Tree} {m : GoMap Bytes Bytes} {trie trie' : Trie}

/-- A write that fails: the nodes in memory are as before, or the key is gone from them. -/
structure FailedWrite (T₀ t : Tree) (trie : Trie) (key : Bytes) (e : TrieError) (trie' : Trie) :
    Prop where
  reader : trie'.reader = trie.reader
  open_ : trie'.committed = false
  left : ∃ p u, Stored T₀ p u ∧ e = .missing p (keccak256 (enc u)) ∧
    (trie'.root = trie.root ∧ ¬ LosesKey trie.root key p ∨
      LosesKey trie.root key p ∧ Absent trie'.root (keybytesToHex key) ∧
        t.lookup (keybytesToHex key) ≠ none)

theorem Holds.failed_delete (h : Holds T₀ m trie t) (hr : Faithful trie.reader T₀) {key : Bytes}
    {e : TrieError} (hres : trie.delete key = some (.error e, trie')) :
    FailedWrite T₀ t trie key e trie' := by
  rcases h.delete hr key with ⟨res, trie'', hdel, hreader, hspec⟩
  rw [hdel] at hres
  cases hres
  rcases hspec with ⟨hopen, p, u, hst, he, -, hleft⟩
  refine ⟨hreader, hopen, p, u, hst, he, ?_⟩
  rcases hleft with ⟨hroot, hp⟩ | hlost
  · refine .inl ⟨hroot, ?_⟩
    rintro ⟨hnot, hloaded⟩
    rcases hp with hp | hp
    · exact hnot hp
    · exact hp hloaded
  · exact .inr hlost

theorem Holds.failed_write (h : Holds T₀ m trie t) (hr : Faithful trie.reader T₀) {w : Write}
    (hw : w.Valid) {e : TrieError} (hres : trie.write w = some (.error e, trie')) :
    FailedWrite T₀ t trie w.key e trie' := by
  cases w with
  | delete key => exact h.failed_delete hr hres
  | update key val =>
    by_cases hnil : val = []
    · subst hnil
      exact h.failed_delete hr hres
    rcases h.update hr hw.1 ⟨val, hnil, hw.2⟩ with ⟨res, trie'', hupd, hreader, hspec⟩
    rw [Trie.write, hupd] at hres
    cases hres
    rcases hspec with ⟨hopen, hroot, p, u, hst, he, -, hp⟩
    exact ⟨hreader, hopen, p, u, hst, he, .inl ⟨hroot, fun hlost => hlost.1 hp⟩⟩

end

/-! ### Runs with failing calls -/

/-- The tries that are reached, with the map the calls that succeeded describe.  Nodes may
    get lost and come back between the calls, and a call may fail, as long as it does not
    lose its key. -/
inductive Reached (T₀ : Tree) : GoMap Bytes Bytes → Trie → Prop
  | opened {r : Reader} {m : GoMap Bytes Bytes} {trie : Trie} :
      Opened r T₀ m trie → Reached T₀ m trie
  | reader {m : GoMap Bytes Bytes} {trie : Trie} {r : Reader} : Reached T₀ m trie →
      Faithful r T₀ → Reached T₀ m { trie with reader := r }
  | call {m : GoMap Bytes Bytes} {trie trie' : Trie} {op : TrieOp} : Reached T₀ m trie →
      op.Valid → trie.apply op = some trie' → Reached T₀ (op.effect m) trie'
  | readFailed {m : GoMap Bytes Bytes} {trie trie' : Trie} {key : Bytes} {e : TrieError} :
      Reached T₀ m trie → trie.get key = some (.error e, trie') → Reached T₀ m trie'
  | writeFailed {m : GoMap Bytes Bytes} {trie trie' : Trie} {w : Write} {path : Path}
      {hash : Hash} : Reached T₀ m trie → w.Valid →
      trie.write w = some (.error (.missing path hash), trie') →
      ¬ LosesKey trie.root w.key path → Reached T₀ m trie'

theorem Reached.holds {T₀ : Tree} {m : GoMap Bytes Bytes} {trie : Trie} (h : Reached T₀ m trie) :
    Faithful trie.reader T₀ ∧ ∃ t, Holds T₀ m trie t := by
  induction h with
  | opened hopen =>
    rcases hopen.inv with ⟨hinv, hr, rfl⟩
    exact ⟨hr, _, hinv.toHolds⟩
  | reader _ hr ih =>
    rcases ih with ⟨-, t, h⟩
    exact ⟨hr, t, h.base, h.open_, h.contents, h.rep⟩
  | call _ hop hres ih =>
    rcases ih with ⟨hr, t, h⟩
    rcases h.apply hr hop with ⟨trie', t', heq, hreader, hholds, -⟩ | ⟨hnone, -⟩
    · rw [heq] at hres
      cases hres
      exact ⟨hreader ▸ hr, t', hholds⟩
    · rw [hnone] at hres
      cases hres
  | @readFailed m trie trie' key e _ hres ih =>
    rcases ih with ⟨hr, t, h⟩
    rcases h.get hr key with ⟨res, trie'', hget, hreader, hholds, -⟩
    rw [hget] at hres
    cases hres
    exact ⟨hreader ▸ hr, t, hholds⟩
  | writeFailed _ hw hres hkeeps ih =>
    rcases ih with ⟨hr, t, h⟩
    rcases h.failed_write hr hw hres with ⟨hreader, hopen, p, u, -, he, hleft⟩
    cases he
    rcases hleft with ⟨hroot, -⟩ | ⟨hloses, -⟩
    · exact ⟨hreader ▸ hr, t, h.base, hopen, h.contents, hroot ▸ h.rep⟩
    · exact absurd hloses hkeeps

/-- A failed call has left the trie as it was: once the missing node can be read, `Get` gives
    what it would give without the call, and `Hash` is the hash of the map. -/
structure Unchanged (T₀ : Tree) (m : GoMap Bytes Bytes) (path : Path) (hash : Hash)
    (trie trie' : Trie) : Prop where
  get : ∀ r, Faithful r T₀ → r path hash ≠ none → ∀ key,
    (({ trie' with reader := r } : Trie).get key).map fst =
      (({ trie with reader := r } : Trie).get key).map fst
  hash : ∃ t, Contents t m ∧ trie'.hash.map fst = some (rootHash t)

/-- **Failed writes.**  A write that fails for a missing node leaves the trie as it was,
    except a deletion that has already cut the key out of a full node in memory when it
    misses the last sibling. -/
theorem failed_write_unchanged_iff {T₀ : Tree} {m : GoMap Bytes Bytes} {trie trie' : Trie}
    (h : Reached T₀ m trie) {w : Write} (hw : w.Valid) {path : Path} {hash : Hash}
    (hfail : trie.write w = some (.error (.missing path hash), trie')) :
    Unchanged T₀ m path hash trie trie' ↔ ¬ LosesKey trie.root w.key path := by
  rcases h.holds with ⟨hr, t, hholds⟩
  rcases hholds.failed_write hr hw hfail with ⟨hreader, hopen, p, u, hst, he, hleft⟩
  cases he
  rcases hleft with ⟨hroot, hkeeps⟩ | ⟨hloses, habsent, hpresent⟩
  · refine iff_of_true ⟨fun r _ _ key => ?_, t, hholds.contents, ?_⟩ hkeeps
    · refine Trie.get_fst ?_ ?_ ?_ key
      · exact hroot
      · rfl
      · exact hopen.trans hholds.open_.symm
    · have hholds' : Holds T₀ m trie' t :=
        ⟨hholds.base, hopen, hholds.contents, hroot ▸ hholds.rep⟩
      rcases hholds'.hash with ⟨trie'', hhash, -⟩
      rw [hhash]
      rfl
  · -- with every node back, the key is found without the call and not found after it
    refine iff_of_false (fun hsame => ?_) (not_not_intro hloses)
    have hcomplete := complete_readerOf T₀
    have heq := hsame.get _ hcomplete.faithful (hcomplete.not_missing hst) w.key
    have hback : Holds T₀ m { trie with reader := readerOf T₀ } t :=
      ⟨hholds.base, hholds.open_, hholds.contents, hholds.rep⟩
    have hlost : (({ trie' with reader := readerOf T₀ } : Trie).get w.key).map fst =
        some (.ok none) := by
      apply Trie.get_absent
      · exact hopen
      · exact habsent
    rw [hlost] at heq
    rcases hback.get hcomplete.faithful w.key with ⟨res, trie'', hget, -, -, -, hspec⟩
    rw [hget] at heq
    cases heq
    have hnone : none = m.lookup w.key := hspec
    rw [hholds.contents.lookup, eq_comm, Option.map_eq_none_iff] at hnone
    exact hpresent hnone

/-! ### A leaf is lost -/

/-- The trie with its root and the first leaf in memory. -/
def loadedLeaf : Option Trie :=
  (newTrie (rootHash twoLeaves) (readerOf twoLeaves)).toOption.bind fun trie =>
    trie.apply (.get [0x11])

section
omit [Crypto]

theorem twoLeaves_ne_nil : twoLeaves ≠ .nil := by
  intro h
  have hnil := isNil_iff.mpr h
  revert hnil
  decide

/-- The second leaf gets lost. -/
theorem reached_loadedLeaf :
    letI := numberCrypto
    ∃ trie, loadedLeaf = some trie ∧
      Reached twoLeaves twoPairs { trie with reader := fun _ _ => none } := by
  let _ : Crypto := numberCrypto
  rcases exists_opened twoLeaves_ne_nil contents_twoLeaves (complete_readerOf _)
    (by decide +kernel) (by decide +kernel) with ⟨trie, hopen⟩
  have hvalid : (TrieOp.get [0x11]).Valid := by
    norm_num [TrieOp.Valid, ValidKey]
  rcases hopen.inv with ⟨hinv, -, hreader⟩
  rcases hinv.apply (hreader ▸ complete_readerOf _) hvalid with ⟨trie', -, happly, -⟩
  have hloaded : loadedLeaf = some trie' := by
    cases hopen with
    | present _ _ _ _ _ hnew =>
      rw [loadedLeaf, hnew]
      exact happly
  exact ⟨trie', hloaded, .reader (.call (.opened hopen) hvalid happly) fun _ _ _ => .inl rfl⟩

/-- Goes on after a write that failed on a missing node. -/
def afterMissing {α : Type} (k : Path → Trie → Option α) : Except TrieError Unit × Trie → Option α
  | (.error (.missing path _), trie) => k path trie
  | _ => none

theorem failed_delete_loses_key :
    letI := numberCrypto
    ∃ trie trie' path hash, Reached twoLeaves twoPairs trie ∧
      trie.delete [0x11] = some (.error (.missing path hash), trie') ∧
      (({ trie with reader := readerOf twoLeaves } : Trie).get [0x11]).map Prod.fst =
        some (.ok (some (List.replicate 32 1))) ∧
      (({ trie' with reader := readerOf twoLeaves } : Trie).get [0x11]).map Prod.fst =
        some (.ok none) := by
  let _ : Crypto := numberCrypto
  rcases reached_loadedLeaf with ⟨trie, hloaded, hreached⟩
  have hbefore : loadedLeaf.bind (fun trie =>
      (({ trie with reader := readerOf twoLeaves } : Trie).get [0x11]).map fst) =
        some (.ok (some (List.replicate 32 1))) := by
    decide +kernel
  have hafter : loadedLeaf.bind (fun trie =>
      (({ trie with reader := fun _ _ => none } : Trie).delete [0x11]).bind <|
        afterMissing fun _ trie' =>
          (({ trie' with reader := readerOf twoLeaves } : Trie).get [0x11]).map fst) =
        some (.ok none) := by
    decide +kernel
  rw [hloaded, Option.bind_some] at hbefore hafter
  rcases hdel : ({ trie with reader := fun _ _ => none } : Trie).delete [0x11] with
    _ | ⟨⟨path, hash⟩ | _ | _ | _, trie'⟩ <;> rw [hdel] at hafter <;> try cases hafter
  exact ⟨_, trie', path, hash, hreached, hdel, hbefore, hafter⟩

theorem failed_update_unchanged :
    letI := numberCrypto
    ∃ trie trie' path hash, Reached twoLeaves twoPairs trie ∧
      trie.update [0x21] [7] = some (.error (.missing path hash), trie') ∧
      Unchanged twoLeaves twoPairs path hash trie trie' := by
  let _ : Crypto := numberCrypto
  rcases reached_loadedLeaf with ⟨trie, hloaded, hreached⟩
  have hrun : loadedLeaf.bind (fun trie =>
      (({ trie with reader := fun _ _ => none } : Trie).update [0x21] [7]).bind <|
        afterMissing fun path _ => some path) = some [2] := by
    decide +kernel
  rw [hloaded, Option.bind_some] at hrun
  rcases hupd : ({ trie with reader := fun _ _ => none } : Trie).update [0x21] [7] with
    _ | ⟨⟨path, hash⟩ | _ | _ | _, trie'⟩ <;> rw [hupd] at hrun <;> try cases hrun
  have hvalid : (Write.update [0x21] [7]).Valid := by
    norm_num [Write.Valid, ValidKey, ValidValue]
  have hkeeps : ¬ LosesKey trie.root [0x21] [2] := fun h => h.1 (by decide)
  exact ⟨_, trie', _, hash, hreached, hupd,
    (failed_write_unchanged_iff hreached hvalid hupd).mpr hkeeps⟩

end

end GethArb.MPT
