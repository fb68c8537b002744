/-
  **What the nodes in memory stand for.**  A trie is opened over a database that has the
  nodes of a tree `T₀`.  A node in memory at a path stands for a tree (`Rep`): unresolved
  hashes and clean nodes stand for the subtree of `T₀` at their path, and a cached hash is
  the hash of what the node stands for.  `Tracked` and `Seen` say what the tracers know
  about the nodes below a path.
-/
import GethArb.TrieCodec
import GethArb.TrieOps

namespace GethArb.MPT

open Patricia List Function

/-! ### Insertions and deletions -/

/-- The insertions and deletions below a path, for the nodes that are there now. -/
def Tracked (T₀ : Tree) (pre : Path) (nodes : Path → Prop) (ops : OpTracer) : Prop :=
  ∀ q, (pre ++ q ∈ ops.inserts ↔ nodes q ∧ ¬ IsNode T₀ (pre ++ q)) ∧
    (pre ++ q ∈ ops.deletes ↔ IsNode T₀ (pre ++ q) ∧ ¬ nodes q)

section
variable {T₀ : Tree} {pre : Path} {nodes nodes' : Path → Prop} {ops : OpTracer}

/-- Of two sets that record the differences of `P` and `Q`: a new member of `P` leaves the
    one or joins the other. -/
theorem toggled {P Q : Path → Prop} {A B : Finset Path} {q : Path}
    (hA : ∀ p, pre ++ p ∈ A ↔ P p ∧ ¬ Q p) (hB : ∀ p, pre ++ p ∈ B ↔ Q p ∧ ¬ P p) (hnew : ¬ P q)
    (p : Path) :
    (pre ++ p ∈ (if pre ++ q ∈ B then A else Insert.insert (pre ++ q) A) ↔ (P p ∨ p = q) ∧ ¬ Q p) ∧
      (pre ++ p ∈ (if pre ++ q ∈ B then B.erase (pre ++ q) else B) ↔ Q p ∧ ¬ (P p ∨ p = q)) := by
  have hp := hA p
  have hp' := hB p
  by_cases hmem : pre ++ q ∈ B
  · have hold := ((hB q).mp hmem).1
    simp only [if_pos hmem, Finset.mem_erase, ne_eq, append_right_inj]
    by_cases heq : p = q
    · subst heq
      tauto
    · tauto
  · have hold : ¬ Q q := fun hold => hmem ((hB q).mpr ⟨hold, hnew⟩)
    simp only [if_neg hmem, Finset.mem_insert, append_right_inj]
    by_cases heq : p = q
    · subst heq
      tauto
    · tauto

variable (h : Tracked T₀ pre nodes ops)
include h

theorem Tracked.congr (heq : ∀ q, nodes' q ↔ nodes q) : Tracked T₀ pre nodes' ops := by
  intro q
  rw [heq q]
  exact h q

/-- A new node. -/
theorem Tracked.onInsert {q : Path} (hnew : ¬ nodes q) :
    Tracked T₀ pre (fun p => nodes p ∨ p = q) (ops.onInsert (pre ++ q)) := by
  have hstep := toggled (fun p => (h p).1) (fun p => (h p).2) hnew
  intro p
  unfold OpTracer.onInsert
  split
  · rename_i hmem
    simpa only [if_pos hmem] using hstep p
  · rename_i hmem
    simpa only [if_neg hmem] using hstep p

/-- A node that is gone. -/
theorem Tracked.onDelete {q : Path} (hold : nodes q) :
    Tracked T₀ pre (fun p => nodes p ∧ p ≠ q) (ops.onDelete (pre ++ q)) := by
  -- the same, seen from the nodes that are not there
  have hstep := toggled (P := fun p => ¬ nodes p) (Q := fun p => ¬ IsNode T₀ (pre ++ p))
    (fun p => (h p).2.trans (by tauto)) (fun p => (h p).1.trans (by tauto)) (not_not.mpr hold)
  intro p
  have hp := hstep p
  unfold OpTracer.onDelete
  split
  · rename_i hmem
    simp only [if_pos hmem] at hp
    tauto
  · rename_i hmem
    simp only [if_neg hmem] at hp
    tauto

omit h

theorem Tracked.child_full {ts : Nibble → Tree} (h : Tracked T₀ pre (IsNode (.full ts)) ops)
    (a : Nibble) : Tracked T₀ (pre ++ [a]) (IsNode (ts a)) ops := by
  intro q
  rw [append_assoc]
  exact h (a :: q)

theorem Tracked.child_short {key : Path} {c : Tree} (hne : key ≠ [])
    (h : Tracked T₀ pre (IsNode (.short key c)) ops) :
    Tracked T₀ (pre ++ key) (IsNode c) ops := by
  intro q
  have := h (key ++ q)
  rwa [isNode_short_append hne, ← append_assoc] at this

end

variable [Crypto]

/-! ### The database -/

/-- The trees that can be in a database. -/
structure Base (T₀ : Tree) : Prop where
  canonical : CanonicalRoot T₀
  bounded : Bounded T₀

/-- The nodes a database has of `T₀`: the root and the standalone nodes. -/
def Stored (T₀ : Tree) (p : Path) (u : Tree) : Prop :=
  T₀.sub p = some u ∧ isPlain u = false ∧ (p = [] ∨ 32 ≤ (enc u).length)

/-- A reader that has every node of `T₀`. -/
def Complete (r : Reader) (T₀ : Tree) : Prop :=
  ∀ p u, Stored T₀ p u → r p (keccak256 (enc u)) = some (enc u)

/-- A reader that may lack nodes of `T₀` but gives no wrong ones. -/
def Faithful (r : Reader) (T₀ : Tree) : Prop :=
  ∀ p u, Stored T₀ p u → r p (keccak256 (enc u)) = none ∨ r p (keccak256 (enc u)) = some (enc u)

variable {T₀ u t : Tree}

theorem Complete.faithful {r : Reader} (h : Complete r T₀) : Faithful r T₀ :=
  fun p u hu => .inr (h p u hu)

variable {p path : Path}

section
omit [Crypto]

theorem Base.sub_canonical (h : Base T₀) (hu : T₀.sub p = some u) (hplain : isPlain u = false) :
    Canonical u := by
  have hvalue : ¬ IsValue u := by
    rw [← isPlain_iff, hplain]
    exact Bool.false_ne_true
  rcases h.canonical with rfl | hc
  · cases p with
    | nil =>
      cases hu
      exact absurd (.inl rfl) hvalue
    | cons a p => cases hu
  · exact (hc.sub hu).resolve_left hvalue

theorem Bounded.sub (h : Bounded t) (hu : t.sub p = some u) : Bounded u := by
  intro k v hk
  rw [lookup_sub hu] at hk
  have := h _ v hk
  rw [length_append] at this
  omega

end

/-! ### Representation -/

/-- The hash of every standalone node in memory is cached. -/
def Hashed : Node → Tree → Prop
  | .short _ val fl, .short key c =>
    (standalone (.short key c) = true → fl.hash ≠ none) ∧ Hashed val c
  | .full children fl, .full ts =>
    (standalone (.full ts) = true → fl.hash ≠ none) ∧ ∀ i, Hashed (children i) (ts i)
  | _, _ => True

/-- The cached hash is the hash of the tree, and only standalone nodes and the root have
    one; everything below is then hashed too.  A clean node is in the database. -/
structure FlagOk (T₀ : Tree) (root : Bool) (path : Path) (fl : NodeFlag) (t : Tree)
    (below : Prop) : Prop where
  hash : ∀ h, fl.hash = some h →
    h = keccak256 (enc t) ∧ (root = false → 32 ≤ (enc t).length) ∧ below
  clean : fl.dirty = false → T₀.sub path = some t

/-- The node, at a path, stands for the tree. -/
def Rep (T₀ : Tree) : Node → Bool → Path → Tree → Prop
  | .nil, _, _, t => t = .nil
  | .value v, _, _, t => ∃ w : Value, w.val = v ∧ t = .value w
  | .short key val fl, root, path, t =>
    ∃ c, t = .short key c ∧ Rep T₀ val false (path ++ key) c ∧
      FlagOk T₀ root path fl t (Hashed val c)
  | .full children fl, root, path, t =>
    ∃ ts, t = .full ts ∧ (∀ i, Rep T₀ (children i) false (path ++ [i]) (ts i)) ∧
      FlagOk T₀ root path fl t (∀ i, Hashed (children i) (ts i))
  | .hash h, root, path, t =>
    root = false ∧ h = keccak256 (enc t) ∧ standalone t = true ∧ T₀.sub path = some t

theorem flagOk_newFlag (T₀ : Tree) (root : Bool) (path : Path) (t : Tree) (below : Prop) :
    FlagOk T₀ root path newFlag t below :=
  ⟨nofun, nofun⟩

variable {root : Bool}

theorem FlagOk.mono {fl : NodeFlag} {below below' : Prop} (h : FlagOk T₀ root path fl t below)
    (himp : below → below') : FlagOk T₀ root path fl t below' where
  hash h' hh := ⟨(h.hash h' hh).1, (h.hash h' hh).2.1, himp (h.hash h' hh).2.2⟩
  clean := h.clean

theorem Rep.isNil {n : Node} (h : Rep T₀ n root path t) : n.isNil = t.isNil := by
  cases n with
  | nil =>
    cases h
    rfl
  | value v =>
    rcases h with ⟨w, -, rfl⟩
    rfl
  | short key val fl =>
    rcases h with ⟨c, rfl, -, -⟩
    rfl
  | full children fl =>
    rcases h with ⟨ts, rfl, -, -⟩
    rfl
  | hash h' =>
    rcases h with ⟨-, -, hs, -⟩
    cases t with
    | nil => cases hs
    | _ => rfl

theorem Rep.isNil_iff {n : Node} (h : Rep T₀ n root path t) : n.isNil = true ↔ t = .nil := by
  rw [h.isNil, Patricia.isNil_iff]

/-- Behind the terminator there is a value or nothing. -/
theorem Rep.plain {n : Node} (h : Rep T₀ n root path t) (ht : IsValue t) :
    n = .nil ∧ t = .nil ∨ ∃ w : Value, n = .value w.val ∧ t = .value w := by
  cases n with
  | nil => exact .inl ⟨rfl, h⟩
  | value v =>
    rcases h with ⟨w, rfl, rfl⟩
    exact .inr ⟨w, rfl, rfl⟩
  | short key val fl =>
    rcases h with ⟨c, rfl, -, -⟩
    exact absurd ht (not_isValue_short key c)
  | full children fl =>
    rcases h with ⟨ts, rfl, -, -⟩
    exact absurd ht (not_isValue_full ts)
  | hash h' =>
    rcases h with ⟨-, -, hs, -⟩
    rw [standalone_iff, isPlain_iff.mpr ht] at hs
    cases hs.1

theorem Rep.eq_value {n : Node} {v : Value} (h : Rep T₀ n root path (.value v)) :
    n = .value v.val := by
  rcases h.plain (.inr ⟨v, rfl⟩) with ⟨-, hnil⟩ | ⟨w, hn, hw⟩
  · cases hnil
  · cases hw
    exact hn

theorem hashed_refNode (h : standalone t = false → Hashed (load t none) t) :
    Hashed (refNode t) t := by
  unfold refNode
  by_cases hs : standalone t = true
  · rw [if_pos hs]
    cases t <;> trivial
  · rw [if_neg hs]
    rw [Bool.not_eq_true] at hs
    exact h hs

variable {hash : Option Hash}

/-- The nodes of a decoded blob have their hashes. -/
theorem hashed_load (h : standalone t = true → hash ≠ none) : Hashed (load t hash) t := by
  induction t generalizing hash with
  | nil | value v => trivial
  | short key c ih =>
    refine ⟨h, hashed_refNode fun hs => ih fun hs' => ?_⟩
    rw [hs] at hs'
    cases hs'
  | full ts ih =>
    refine ⟨h, fun i => hashed_refNode fun hs => ih i fun hs' => ?_⟩
    rw [hs] at hs'
    cases hs'

/-- A blob of the database, decoded, stands for its tree. -/
theorem rep_load (hc : Canonical t) (hsub : T₀.sub path = some t)
    (hhash : ∀ h, hash = some h → h = keccak256 (enc t) ∧ (root = false → 32 ≤ (enc t).length)) :
    Rep T₀ (load t hash) root path t := by
  -- a reference to a child is a hash of the database or an embedded node
  have href : ∀ {c : Tree} {q : Path}, T₀.sub q = some c →
      (Rep T₀ (load c none) false q c) → Rep T₀ (refNode c) false q c := by
    intro c q hq hload
    unfold refNode
    split
    · exact ⟨rfl, rfl, ‹_›, hq⟩
    · exact hload
  have hbelow : ∀ c : Tree, Hashed (refNode c) c := by
    intro c
    refine hashed_refNode fun hs => hashed_load fun hs' => ?_
    rw [hs] at hs'
    cases hs'
  induction hc generalizing hash root path with
  | @leaf key v hkey =>
    exact ⟨_, rfl, ⟨v, rfl, rfl⟩, fun h hh => ⟨(hhash h hh).1, (hhash h hh).2, trivial⟩,
      fun _ => hsub⟩
  | @ext key children hne hlast hfull ih =>
    have hchild : T₀.sub (path ++ key) = some (.full children) := by
      rw [sub_append hsub, sub_short_self hne]
    exact ⟨_, rfl, href hchild (ih hchild nofun),
      fun h hh => ⟨(hhash h hh).1, (hhash h hh).2, hbelow _⟩, fun _ => hsub⟩
  | @branch children hchild hlast htwo ih =>
    refine ⟨children, rfl, fun i => ?_,
      fun h hh => ⟨(hhash h hh).1, (hhash h hh).2, fun i => hbelow _⟩, fun _ => hsub⟩
    have hi : T₀.sub (path ++ [i]) = some (children i) := by
      rw [sub_append hsub, sub_full, sub_here]
    apply href hi
    by_cases hlast' : i = Fin.last 16
    · subst hlast'
      rcases hlast with hnil | ⟨v, hv⟩
      · rw [hnil]
        rfl
      · rw [hv]
        exact ⟨v, rfl, rfl⟩
    · by_cases hnil : children i = .nil
      · rw [hnil]
        rfl
      · exact ih i hlast' hnil hi nofun

/-- Loading a node of the database. -/
theorem resolveAndTrack_spec {r : Reader} (hT : Base T₀) (hr : Faithful r T₀)
    (hst : Stored T₀ path t) (tr : Tracers) :
    (r path (keccak256 (enc t)) = none ∧
      resolveAndTrack r (keccak256 (enc t)) path tr =
        (.error (.missing path (keccak256 (enc t))), tr)) ∨
    (r path (keccak256 (enc t)) = some (enc t) ∧
      resolveAndTrack r (keccak256 (enc t)) path tr =
        (.ok (load t (some (keccak256 (enc t)))), tr.put path (enc t))) := by
  have hc := hT.sub_canonical hst.1 hst.2.1
  rcases hr path t hst with hread | hread
  · left
    refine ⟨hread, ?_⟩
    simp [resolveAndTrack, Reader.node, hread]
  · right
    refine ⟨hread, ?_⟩
    rcases exists_cons_of_ne_nil (enc_ne_nil hc) with ⟨b, blob, hblob⟩
    have hnode : Reader.node r path (keccak256 (enc t)) = .ok (enc t) := by
      rw [Reader.node, hread, hblob]
    simp [resolveAndTrack, hnode, decodeNode_enc hc (hT.bounded.sub hst.1)]

/-! ### What the tracers know -/

/-- The path leads to an unresolved hash. -/
def Hidden : Node → Path → Prop
  | .hash _, _ => True
  | .short key val _, q => key <+: q ∧ Hidden val (q.drop key.length)
  | .full children _, a :: q => Hidden (children a) q
  | _, _ => False

/-- Every node of the database below a path has been loaded or is still unresolved. -/
def Seen (T₀ : Tree) (pre : Path) (n : Node) (prevalues : GoMap Path Bytes) : Prop :=
  ∀ q u, Stored T₀ (pre ++ q) u → pre ++ q ∈ prevalues ∨ Hidden n q

/-- The blobs that have been loaded are those of the database. -/
def Genuine (T₀ : Tree) (prevalues : GoMap Path Bytes) : Prop :=
  ∀ p b, prevalues.lookup p = some b → ∃ u, Stored T₀ p u ∧ b = enc u

/-- What a call below a path does to the tracers: the operations elsewhere stay as they
    are, and more nodes are loaded. -/
structure Moves (T₀ : Tree) (pre : Path) (tr tr' : Tracers) : Prop where
  grows : ∀ p ∈ tr.prevalues, p ∈ tr'.prevalues
  genuine : Genuine T₀ tr.prevalues → Genuine T₀ tr'.prevalues
  elsewhere : ∀ p, ¬ pre <+: p → (p ∈ tr'.ops.inserts ↔ p ∈ tr.ops.inserts) ∧
    (p ∈ tr'.ops.deletes ↔ p ∈ tr.ops.deletes)

/-- The tracers are right below the path of a node. -/
structure Traced (T₀ : Tree) (pre : Path) (n : Node) (t : Tree) (tr : Tracers) : Prop where
  tracked : Tracked T₀ pre (IsNode t) tr.ops
  seen : Seen T₀ pre n tr.prevalues

section
variable {T₀ : Tree} {pre : Path} {tr tr' tr'' : Tracers}

theorem Moves.refl (T₀ : Tree) (pre : Path) (tr : Tracers) : Moves T₀ pre tr tr :=
  ⟨fun _ h => h, id, fun _ _ => ⟨Iff.rfl, Iff.rfl⟩⟩

theorem Moves.trans (h : Moves T₀ pre tr tr') (h' : Moves T₀ pre tr' tr'') :
    Moves T₀ pre tr tr'' where
  grows p hp := h'.grows p (h.grows p hp)
  genuine hg := h'.genuine (h.genuine hg)
  elsewhere p hp :=
    ⟨(h'.elsewhere p hp).1.trans (h.elsewhere p hp).1,
      (h'.elsewhere p hp).2.trans (h.elsewhere p hp).2⟩

variable {q key : Path}

/-- What happens below a longer path happens below the shorter one. -/
theorem Moves.widen (h : Moves T₀ (pre ++ q) tr tr') : Moves T₀ pre tr tr' where
  grows := h.grows
  genuine := h.genuine
  elsewhere p hp := h.elsewhere p fun hpre => hp ((prefix_append pre q).trans hpre)

variable {u c c' t : Tree}

theorem Moves.put (h : Stored T₀ pre u) (tr : Tracers) : Moves T₀ pre tr (tr.put pre (enc u)) where
  grows _ hp := Finmap.mem_insert.mpr (.inr hp)
  genuine hg := GoMap.forall_insert hg ⟨u, h, rfl⟩
  elsewhere _ _ := ⟨Iff.rfl, Iff.rfl⟩

theorem Moves.onInsert (tr : Tracers) (q : Path) : Moves T₀ pre tr (tr.onInsert (pre ++ q)) where
  grows _ h := h
  genuine := id
  elsewhere p hp := by
    have hne : p ≠ pre ++ q := by
      rintro rfl
      exact hp (prefix_append _ _)
    simp only [Tracers.onInsert, OpTracer.onInsert]
    split <;> simp [hne]

theorem Moves.onDelete (tr : Tracers) (q : Path) : Moves T₀ pre tr (tr.onDelete (pre ++ q)) where
  grows _ h := h
  genuine := id
  elsewhere p hp := by
    have hne : p ≠ pre ++ q := by
      rintro rfl
      exact hp (prefix_append _ _)
    simp only [Tracers.onDelete, OpTracer.onDelete]
    split <;> simp [hne]

variable {ts : Nibble → Tree} {a : Nibble}

/-- A call below a child of a full node. -/
theorem Tracked.update_full (h : Tracked T₀ pre (IsNode (.full ts)) tr.ops)
    (hm : Moves T₀ (pre ++ [a]) tr tr') (hc : Tracked T₀ (pre ++ [a]) (IsNode c) tr'.ops) :
    Tracked T₀ pre (IsNode (.full (update ts a c))) tr'.ops := by
  intro q
  by_cases hq : ∃ p, q = a :: p
  · rcases hq with ⟨p, rfl⟩
    have := hc p
    rw [append_assoc] at this
    rw [isNode_full_cons, update_self]
    exact this
  · have houter : ¬ pre ++ [a] <+: pre ++ q := by
      rw [prefix_append_right_inj]
      rintro ⟨p, rfl⟩
      exact hq ⟨p, rfl⟩
    have hsame : IsNode (.full (update ts a c)) q ↔ IsNode (.full ts) q := by
      cases q with
      | nil => exact ⟨fun _ => isNode_full_here _, fun _ => isNode_full_here _⟩
      | cons b p =>
        have hb : b ≠ a := by
          rintro rfl
          exact hq ⟨p, rfl⟩
        rw [isNode_full_cons, isNode_full_cons, update_of_ne hb]
    rw [hsame, (hm.elsewhere _ houter).1, (hm.elsewhere _ houter).2]
    exact h q

/-- A call below a short node. -/
theorem Tracked.update_short (hne : key ≠ []) (h : Tracked T₀ pre (IsNode (.short key c)) tr.ops)
    (hm : Moves T₀ (pre ++ key) tr tr') (hc : Tracked T₀ (pre ++ key) (IsNode c') tr'.ops) :
    Tracked T₀ pre (IsNode (.short key c')) tr'.ops := by
  intro q
  by_cases hq : key <+: q
  · rcases hq with ⟨p, rfl⟩
    have := hc p
    rw [append_assoc] at this
    rw [isNode_short_append hne]
    exact this
  · have houter : ¬ pre ++ key <+: pre ++ q := by
      rw [prefix_append_right_inj]
      exact hq
    have hroot : ∀ c : Tree, IsNode (.short key c) q ↔ q = [] := by
      intro c
      rw [isNode_short hne]
      refine ⟨fun h => h.resolve_right ?_, .inl⟩
      rintro ⟨r, rfl, -⟩
      exact hq (prefix_append _ _)
    rw [hroot c', ← hroot c, (hm.elsewhere _ houter).1, (hm.elsewhere _ houter).2]
    exact h q

/-! #### Loaded nodes -/

variable {n n' val val' : Node} {P P' : GoMap Path Bytes}

theorem Seen.mono (h : Seen T₀ pre n P) (hP : ∀ p ∈ P, p ∈ P') (hn : ∀ q, Hidden n q →
      Hidden n' q) :
    Seen T₀ pre n' P' := by
  intro q u hu
  rcases h q u hu with hmem | hhid
  · exact .inl (hP _ hmem)
  · exact .inr (hn q hhid)

variable {children : Nibble → Node} {fl fl' : NodeFlag}

theorem Seen.child_full (h : Seen T₀ pre (.full children fl) P) (a : Nibble) :
    Seen T₀ (pre ++ [a]) (children a) P := by
  intro q u hu
  rw [append_assoc] at hu ⊢
  exact h (a :: q) u hu

theorem Seen.child_short (h : Seen T₀ pre (.short key val fl) P) : Seen T₀ (pre ++ key) val P := by
  intro q u hu
  rw [append_assoc] at hu ⊢
  rcases h (key ++ q) u hu with hmem | ⟨-, hhid⟩
  · exact .inl hmem
  · rw [drop_left] at hhid
    exact .inr hhid

theorem Seen.update_full {c : Node} (h : Seen T₀ pre (.full children fl) P) (hP : ∀ p ∈ P, p ∈ P')
    (hc : Seen T₀ (pre ++ [a]) c P') :
    Seen T₀ pre (.full (update children a c) fl') P' := by
  intro q u hu
  cases q with
  | nil =>
    rcases h [] u hu with hmem | hhid
    · exact .inl (hP _ hmem)
    · exact hhid.elim
  | cons b q =>
    by_cases hb : b = a
    · subst hb
      have := hc q u (by rwa [append_assoc])
      rw [append_assoc] at this
      rcases this with hmem | hhid
      · exact .inl hmem
      · right
        rw [Hidden, update_self]
        exact hhid
    · rcases h (b :: q) u hu with hmem | hhid
      · exact .inl (hP _ hmem)
      · right
        rw [Hidden, update_of_ne hb]
        exact hhid

theorem Seen.update_short (h : Seen T₀ pre (.short key val fl) P) (hP : ∀ p ∈ P, p ∈ P')
    (hc : Seen T₀ (pre ++ key) val' P') : Seen T₀ pre (.short key val' fl') P' := by
  intro q u hu
  rcases h q u hu with hmem | ⟨hpre, -⟩
  · exact .inl (hP _ hmem)
  rcases hpre with ⟨p, rfl⟩
  have := hc p u (by rwa [append_assoc])
  rw [append_assoc] at this
  rcases this with hmem | hhid
  · exact .inl hmem
  · refine .inr ⟨prefix_append _ _, ?_⟩
    rw [drop_left]
    exact hhid

/-- Below a decoded blob the standalone nodes are unresolved. -/
theorem hidden_load (hc : Canonical t) (hq : q ≠ []) (hu : t.sub q = some u)
    (hs : standalone u = true) : Hidden (load t hash) q := by
  -- at a reference, the node itself may be the one
  have href : ∀ {c : Tree} {p : Path}, c.sub p = some u →
      (p ≠ [] → standalone c = false → Hidden (load c none) p) → Hidden (refNode c) p := by
    intro c p hp hload
    unfold refNode
    by_cases hsc : standalone c = true
    · rw [if_pos hsc]
      trivial
    rw [if_neg hsc]
    rw [Bool.not_eq_true] at hsc
    refine hload ?_ hsc
    rintro rfl
    rw [sub_here, Option.some.injEq] at hp
    rw [hp, hs] at hsc
    cases hsc
  induction hc generalizing hash q with
  | @leaf key v hkey =>
    rcases (sub_short_iff hkey.ne_nil).mp hu with ⟨hnil, -⟩ | ⟨p, -, hp⟩
    · exact absurd hnil hq
    · rw [(sub_isValue (.inr ⟨v, rfl⟩) hp).2] at hs
      cases hs
  | @ext key children hne hlast hfull ih =>
    rcases (sub_short_iff hne).mp hu with ⟨hnil, -⟩ | ⟨p, rfl, hsub⟩
    · exact absurd hnil hq
    · refine ⟨prefix_append _ _, ?_⟩
      rw [drop_left]
      exact href hsub fun hp _ => ih hp hsub
  | @branch children hchild hlast htwo ih =>
    cases q with
    | nil => exact absurd rfl hq
    | cons a p =>
      refine href hu fun hp hsc => ?_
      by_cases ha : a = Fin.last 16
      · subst ha
        exact absurd (sub_isValue hlast hu).1 hp
      · by_cases hnil : children a = .nil
        · exact absurd (sub_isValue (.inl hnil) hu).1 hp
        · exact ih a ha hnil hp hu

theorem Stored.standalone (h : Stored T₀ p u) (hp : p ≠ []) : standalone u = true := by
  rw [standalone_iff]
  exact ⟨h.2.1, h.2.2.resolve_left hp⟩

/-- After loading a node. -/
theorem seen_load (hc : Canonical t) (hsub : T₀.sub pre = some t) (hash : Option Hash)
    (P : GoMap Path Bytes) (b : Bytes) : Seen T₀ pre (load t hash) (P.insert pre b) := by
  intro q u hu
  by_cases hq : q = []
  · left
    rw [hq, append_nil]
    exact Finmap.mem_insert.mpr (.inl rfl)
  · right
    have hsu : t.sub q = some u := by
      rw [← sub_append hsub]
      exact hu.1
    exact hidden_load hc hq hsu (hu.standalone (by simp [hq]))

/-- A hash node, loaded. -/
theorem Rep.hash_load {h : Hash} (hT : Base T₀) (hrep : Rep T₀ (.hash h) root pre t) :
    root = false ∧ Stored T₀ pre t ∧ h = keccak256 (enc t) ∧
      Rep T₀ (load t (some (keccak256 (enc t)))) false pre t := by
  rcases hrep with ⟨hroot, rfl, hs, hsub⟩
  have hs := standalone_iff.mp hs
  refine ⟨hroot, ⟨hsub, hs.1, .inr hs.2⟩, rfl, ?_⟩
  refine rep_load (hT.sub_canonical hsub hs.1) hsub fun h' hh => ?_
  cases hh
  exact ⟨rfl, fun _ => hs.2⟩

theorem Traced.load {h : Hash} (hT : Base T₀) (hst : Stored T₀ pre t)
    (htr : Traced T₀ pre (.hash h) t tr) (hash : Option Hash) :
    Traced T₀ pre (load t hash) t (tr.put pre (enc t)) :=
  ⟨htr.tracked, seen_load (hT.sub_canonical hst.1 hst.2.1) hst.1 _ _ _⟩

theorem Traced.child_full (h : Traced T₀ pre (.full children fl) (.full ts) tr) (a : Nibble) :
    Traced T₀ (pre ++ [a]) (children a) (ts a) tr :=
  ⟨h.tracked.child_full a, h.seen.child_full a⟩

theorem Traced.child_short (hne : key ≠ [])
    (h : Traced T₀ pre (.short key val fl) (.short key c) tr) : Traced T₀ (pre ++ key) val c tr :=
  ⟨h.tracked.child_short hne, h.seen.child_short⟩

theorem Traced.update_full (h : Traced T₀ pre (.full children fl) (.full ts) tr)
    (hm : Moves T₀ (pre ++ [a]) tr tr') (hc : Traced T₀ (pre ++ [a]) n c tr') :
    Traced T₀ pre (.full (update children a n) fl') (.full (update ts a c)) tr' :=
  ⟨h.tracked.update_full hm hc.tracked, h.seen.update_full hm.grows hc.seen⟩

theorem Traced.update_short (hne : key ≠ [])
    (h : Traced T₀ pre (.short key val fl) (.short key c) tr) (hm : Moves T₀ (pre ++ key) tr tr')
    (hc : Traced T₀ (pre ++ key) val' c' tr') :
    Traced T₀ pre (.short key val' fl') (.short key c') tr' :=
  ⟨h.tracked.update_short hne hm hc.tracked, h.seen.update_short hm.grows hc.seen⟩

/-- Of a call that changed nothing, the node from before is kept. -/
theorem Traced.keep (h : Traced T₀ pre n t tr) (h' : Traced T₀ pre n' t tr')
    (hgrows : ∀ p ∈ tr.prevalues, p ∈ tr'.prevalues) : Traced T₀ pre n t tr' :=
  ⟨h'.tracked, h.seen.mono hgrows fun _ h => h⟩

theorem Traced.keep_short (hne : key ≠ []) (h : Traced T₀ pre (.short key val fl) (.short key c) tr)
    (hm : Moves T₀ (pre ++ key) tr tr') (hc : Traced T₀ (pre ++ key) n' c tr') :
    Traced T₀ pre (.short key val fl) (.short key c) tr' :=
  ⟨h.tracked.update_short hne hm hc.tracked, h.seen.mono hm.grows fun _ h => h⟩

theorem Traced.keep_full (h : Traced T₀ pre (.full children fl) (.full ts) tr)
    (hm : Moves T₀ (pre ++ [a]) tr tr') (hc : Traced T₀ (pre ++ [a]) n' (ts a) tr') :
    Traced T₀ pre (.full children fl) (.full ts) tr' := by
  have htracked := h.tracked.update_full hm hc.tracked
  rw [update_eq_self] at htracked
  exact ⟨htracked, h.seen.mono hm.grows fun _ h => h⟩

/-- A child replaced by one that stands for another tree. -/
theorem rep_update_both (h : ∀ i, Rep T₀ (children i) false (pre ++ [i]) (ts i))
    (ha : Rep T₀ n false (pre ++ [a]) t) (i : Nibble) :
    Rep T₀ (update children a n i) false (pre ++ [i]) (update ts a t i) := by
  by_cases hi : i = a
  · subst hi
    rw [update_self, update_self]
    exact ha
  · rw [update_of_ne hi, update_of_ne hi]
    exact h i

/-- A child replaced by one that stands for the same tree. -/
theorem rep_update (h : ∀ i, Rep T₀ (children i) false (pre ++ [i]) (ts i))
    (ha : Rep T₀ n false (pre ++ [a]) (ts a)) (i : Nibble) :
    Rep T₀ (update children a n i) false (pre ++ [i]) (ts i) := by
  have := rep_update_both h ha i
  rwa [update_eq_self] at this

end

end GethArb.MPT
