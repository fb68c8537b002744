/-
  **What the hasher does**: it gives the reference to the tree a node stands for, and
  leaves a node that stands for the same tree with all hashes cached.
-/
import GethArb.TrieSpec

namespace GethArb.MPT

open Patricia

variable [Crypto]
variable {fl : NodeFlag}

section
variable {T₀ : Tree}

omit [Crypto] in
theorem sequence_eq_some {n : Nat} {α : Type} {f : Fin n → Option α} {g : Fin n → α}
    (h : ∀ i, f i = some (g i)) : sequence f = some g := by
  have hf : f = fun i => some (g i) := funext h
  subst hf
  exact dif_pos fun i => rfl

variable {root : Bool}

/-- What the hasher returns for a tree. -/
def hashRef (root : Bool) (t : Tree) : Bytes :=
  if root then hashBytes (keccak256 (enc t)) else ref t

/-- Keeping a blob or its hash. -/
theorem sealRef_spec {path : Path} {t : Tree} {below below' : Prop}
    (hfl : FlagOk T₀ root path fl t below) (hnone : fl.hash = none) (hplain : isPlain t = false)
    (hbelow : below') :
    ∃ fl', sealRef root (enc t) fl = (hashRef root t, fl') ∧ FlagOk T₀ root path fl' t below' ∧
      (standalone t = true → fl'.hash ≠ none) ∧
      (root = true → fl'.hash = some (keccak256 (enc t))) ∧ fl'.dirty = fl.dirty := by
  unfold sealRef
  by_cases hsmall : (enc t).length < 32 ∧ root = false
  · have hs : standalone t = false := by
      rw [← Bool.not_eq_true, standalone_iff]
      exact fun h => absurd h.2 (by omega)
    rw [if_pos hsmall]
    refine ⟨fl, ?_, ⟨fun h hh => ?_, hfl.clean⟩, ?_, ?_, rfl⟩
    · rw [hashRef, hsmall.2, if_neg Bool.false_ne_true, ref_of_embedded hs]
    · rw [hnone] at hh
      cases hh
    · intro h
      rw [hs] at h
      cases h
    · intro h
      rw [hsmall.2] at h
      cases h
  · rw [if_neg hsmall]
    have hlarge : root = false → 32 ≤ (enc t).length := by
      intro hroot
      by_contra hlt
      exact hsmall ⟨by omega, hroot⟩
    refine ⟨{ fl with hash := some (keccak256 (enc t)) }, ?_, ⟨?_, hfl.clean⟩, fun _ => by simp,
      fun _ => rfl, rfl⟩
    · cases root with
      | true => rfl
      | false =>
        have hs : standalone t = true := standalone_iff.mpr ⟨hplain, hlarge rfl⟩
        rw [hashRef, if_neg Bool.false_ne_true, ref_of_standalone hs]
    · intro h hh
      cases hh
      exact ⟨rfl, hlarge, hbelow⟩

/-- The result of the hasher. -/
structure HashSpec (T₀ : Tree) (root : Bool) (pre : Path) (n : Node) (t : Tree) (n' : Node) :
    Prop where
  rep : Rep T₀ n' root pre t
  hidden : ∀ q, Hidden n' q ↔ Hidden n q
  hashed : Hashed n' t
  root : root = true → n'.cache.1 = some (keccak256 (enc t))

/-- A node with a cached hash is left as it is. -/
theorem HashSpec.cached (n : Node) {path : Path} {t : Tree} {below : Prop} {h : Hash}
    (hfl : FlagOk T₀ root path fl t below) (hplain : isPlain t = false) (hh : fl.hash = some h)
    (hrep : Rep T₀ n root path t) (hn : n.cache.1 = fl.hash) (hhashed : below → Hashed n t) :
    hashBytes h = hashRef root t ∧ HashSpec T₀ root path n t n := by
  rcases hfl.hash h hh with ⟨rfl, hlarge, hbelow⟩
  refine ⟨?_, hrep, fun q => Iff.rfl, hhashed hbelow, fun _ => hn.trans hh⟩
  cases root with
  | true => rfl
  | false =>
    rw [hashRef, if_neg Bool.false_ne_true,
      ref_of_standalone (standalone_iff.mpr ⟨hplain, hlarge rfl⟩)]

theorem hashNode_spec {n : Node} {pre : Path} {t : Tree} (h : Rep T₀ n root pre t) (hs : Shaped t)
    (hne : t ≠ .nil) :
    ∃ n', hashNode n root = some (hashRef root t, n') ∧ HashSpec T₀ root pre n t n' := by
  induction n generalizing root pre t with
  | nil => exact absurd h hne
  | value v =>
    rcases h with ⟨w, -, rfl⟩
    cases hs
  | hash h' =>
    rcases h with ⟨rfl, rfl, hst, hsub⟩
    refine ⟨.hash (keccak256 (enc t)), ?_, ⟨rfl, rfl, hst, hsub⟩, fun q => Iff.rfl, ?_, nofun⟩
    · rw [hashNode, hashRef, if_neg Bool.false_ne_true, ref_of_standalone hst]
    · cases t <;> trivial
  | short key val fl ih =>
    rcases h with ⟨c, rfl, hrep, hfl⟩
    cases hhash : fl.hash with
    | some h' =>
      rcases HashSpec.cached (.short key val fl) hfl rfl hhash ⟨c, rfl, hrep, hfl⟩ rfl
        fun h => ⟨by simp [hhash], h⟩ with ⟨href, hspec⟩
      refine ⟨_, ?_, hspec⟩
      rw [hashNode, ← href]
      simp only [hhash]
    | none =>
      cases hs with
      | leaf v hkey =>
        cases hrep.eq_value
        have hbelow : Hashed (.value v.val) (.value v : Tree) := trivial
        rcases sealRef_spec hfl hhash rfl hbelow with ⟨fl', hseal, hfl', hst, hroot, -⟩
        refine ⟨.short key (.value v.val) fl', ?_, ⟨_, rfl, hrep, hfl'⟩, fun q => Iff.rfl,
          ⟨hst, trivial⟩, hroot⟩
        have henc : enc (.short key (.value v)) = leafEncode (hexToCompact key) v.val := by
          rw [enc_short, shortEncode, if_pos (hasTerm_of_terminated hkey)]
          rfl
        rw [henc] at hseal
        rw [hashNode]
        simp [hhash, hasTerm_of_terminated hkey, Node.asValue, hseal]
      | ext hkne hlast hshaped hcne =>
        rcases ih hrep hshaped hcne with ⟨val', hval, hspec⟩
        rcases sealRef_spec hfl hhash rfl hspec.hashed with ⟨fl', hseal, hfl', hst, hroot, -⟩
        refine ⟨.short key val' fl', ?_, ⟨_, rfl, hspec.rep, hfl'⟩, fun q => ?_,
          ⟨hst, hspec.hashed⟩, hroot⟩
        · have henc : enc (.short key c) = extEncode (hexToCompact key) (ref c) := by
            rw [enc_short, shortEncode, hasTerm_of_notMem hlast, if_neg Bool.false_ne_true]
          rw [henc] at hseal
          rw [hashNode]
          simp only [hhash, hasTerm_of_notMem hlast, Bool.false_eq_true, if_false, hval,
            Option.map_some, hashRef] at hseal ⊢
          rw [hseal]
        · rw [Hidden, Hidden, hspec.hidden]
  | full children fl ih =>
    rcases h with ⟨ts, rfl, hrep, hfl⟩
    cases hhash : fl.hash with
    | some h' =>
      rcases HashSpec.cached (.full children fl) hfl rfl hhash ⟨ts, rfl, hrep, hfl⟩ rfl
        fun h => ⟨by simp [hhash], h⟩ with ⟨href, hspec⟩
      refine ⟨_, ?_, hspec⟩
      rw [hashNode, ← href]
      simp only [hhash]
    | none =>
      cases hs with
      | branch hshaped hvalue =>
        -- each child is hashed by itself
        have hchild : ∀ i, ∃ n', (if (children i).isNil then some ([], Node.nil)
            else if i = 16 then (children i).asValue.map fun v => (v, children i)
            else hashNode (children i) false) = some (ref (ts i), n') ∧
            HashSpec T₀ false (pre ++ [i]) (children i) (ts i) n' := by
          intro i
          by_cases hnil : (children i).isNil = true
          · have ht := (hrep i).isNil_iff.mp hnil
            rw [ht, Node.isNil_iff.mp hnil]
            exact ⟨_, rfl, rfl, fun q => Iff.rfl, trivial, nofun⟩
          have ht := (hrep i).isNil_iff.not.mp hnil
          rw [if_neg hnil]
          by_cases hi : i = 16
          · subst hi
            rcases (hrep 16).plain hvalue with ⟨-, hnone⟩ | ⟨w, hn, hw⟩
            · exact absurd hnone ht
            · rw [hn, hw]
              exact ⟨_, rfl, ⟨w, rfl, rfl⟩, fun q => Iff.rfl, trivial, nofun⟩
          · rw [if_neg hi]
            exact ih i (hrep i) (hshaped i hi) ht
        choose children' hhashed hspec using hchild
        rcases sealRef_spec hfl hhash rfl fun i => (hspec i).hashed with
          ⟨fl', hseal, hfl', hst, hroot, -⟩
        refine ⟨.full children' fl', ?_, ⟨ts, rfl, fun i => (hspec i).rep, hfl'⟩, fun q => ?_,
          ⟨hst, fun i => (hspec i).hashed⟩, hroot⟩
        · rw [hashNode]
          simp only [hhash]
          rw [sequence_eq_some hhashed]
          rw [enc_full] at hseal
          simp only [Option.map_some, hseal]
        · cases q with
          | nil => exact Iff.rfl
          | cons a q => exact (hspec a).hidden q

end

end GethArb.MPT
