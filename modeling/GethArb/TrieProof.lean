/-
  **Merkle proofs** (`Prove` and `VerifyProof` of `trie/proof.go`).  A proof for a key is the
  blobs of the nodes on the way to it, by hash.  The verifier walks down from the root hash
  and trusts a blob for its hash alone: if no two blobs that occur have one hash, it meets
  the nodes of the trie and nothing else.

  The hashes that `Prove` leaves in the nodes it encodes are not kept: they are caches.
-/
import GethArb.TrieRun

namespace GethArb.MPT

open Patricia List TrieOp

/-! ### Prove -/

section
variable [Crypto]

/-- `hasher.proofHash`: the blob of a node. -/
def proofHash : Node → Option Bytes
  | .short key val _ =>
    if hasTerm key then val.asValue.map (leafEncode (hexToCompact key))
    else (hashNode val false).map fun child => extEncode (hexToCompact key) child.1
  | .full children _ =>
    (sequence fun i =>
      if (children i).isNil then some []
      else if i = 16 then (children i).asValue
      else (hashNode (children i) false).map Prod.fst).map fullEncode
  | _ => none

/-- The nodes on the path to the key. -/
def proveLoop (r : Reader) : Nat → Node → Path → Path → List Node →
    Option (Except TrieError (List Node))
  | 0, _, _, _, _ => none
  | fuel + 1, tn, pre, key, nodes =>
    if key = [] ∨ tn.isNil then some (.ok nodes)
    else
      match tn with
      | .short nkey val _ =>
        if nkey <+: key then
          proveLoop r fuel val (pre ++ nkey) (key.drop nkey.length) (nodes ++ [tn])
        else proveLoop r fuel .nil pre key (nodes ++ [tn])
      | .full children _ =>
        match key with
        | [] => none
        | a :: key => proveLoop r fuel (children a) (pre ++ [a]) key (nodes ++ [tn])
      | .hash h =>
        match r.node pre h with
        | .error e => some (.error e)
        | .ok blob =>
          match decodeNode (some h) blob with
          | .error _ => none
          | .ok n => proveLoop r fuel n pre key nodes
      | .value _ => none
      | .nil => none

/-- The blob of one node goes into the proof if it is referred to by hash. -/
def putProof (proofDb : GoMap Hash Bytes) (x : Node × Nat) : Option (GoMap Hash Bytes) :=
  (proofHash x.1).map fun enc =>
    if 32 ≤ enc.length ∨ x.2 = 0 then proofDb.insert (keccak256 enc) enc else proofDb

def Trie.prove (t : Trie) (key : Bytes) (proofDb : GoMap Hash Bytes) :
    Option (Except TrieError (GoMap Hash Bytes)) :=
  if t.committed then some (.error .committed)
  else do
    let k := keybytesToHex key
    match ← proveLoop t.reader (depth k) t.root [] k [] with
    | .error e => some (.error e)
    | .ok nodes =>
      let proofDb ← nodes.zipIdx.foldlM putProof proofDb
      some (.ok proofDb)

end

/-! ### VerifyProof -/

/-- `get` of `proof.go`: the child at the key and what is left of the key.  With
    `skipResolved` only a hash, a value or nothing is returned. -/
def proofGet : Node → Path → Bool → Option (Path × Node)
  | .short nkey val _, key, skipResolved =>
    if nkey <+: key then
      if skipResolved then proofGet val (key.drop nkey.length) skipResolved
      else some (key.drop nkey.length, val)
    else some ([], .nil)
  | .full children _, key, skipResolved =>
    match key with
    | [] => none
    | a :: key =>
      if skipResolved then proofGet (children a) key skipResolved else some (key, children a)
  | .hash h, key, _ => some (key, .hash h)
  | .nil, key, _ => some (key, .nil)
  | .value v, _, _ => some ([], .value v)

inductive ProofError where
  | missing (i : Nat) (hash : Hash)
  | bad (i : Nat) (err : NodeError)
deriving DecidableEq

/-- The loop of `VerifyProof`; `i` counts the nodes. -/
def verifyLoop (proofDb : Hash → Option Bytes) : Nat → Nat → Hash → Path →
    Option (Except ProofError (Option Bytes))
  | 0, _, _, _ => none
  | fuel + 1, i, wantHash, key =>
    match proofDb wantHash with
    | none => some (.error (.missing i wantHash))
    | some buf =>
      match decodeNode (some wantHash) buf with
      | .error err => some (.error (.bad i err))
      | .ok n =>
        match proofGet n key true with
        | none => none
        | some (_, .nil) => some (.ok none)
        | some (keyrest, .hash h) => verifyLoop proofDb fuel (i + 1) h keyrest
        | some (_, .value v) => some (.ok (some v))
        -- a resolved node is not returned: the loop would go on with the same hash
        | some (_, _) => verifyLoop proofDb fuel (i + 1) wantHash key

/-- `VerifyProof`.  Every node of a trie takes a nibble of the key. -/
def verifyProof (rootHash : Hash) (key : Bytes) (proofDb : Hash → Option Bytes) :
    Option (Except ProofError (Option Bytes)) :=
  verifyLoop proofDb ((keybytesToHex key).length + 1) 0 rootHash (keybytesToHex key)

/-! ### What a proof contains -/

/-- The trees on the path to a key. -/
def trail : Tree → Path → List Tree
  | .short key c, k =>
    .short key c :: if key <+: k then trail c (k.drop key.length) else []
  | .full ts, a :: k => .full ts :: trail (ts a) k
  | _, _ => []

theorem trail_isValue {t : Tree} (h : IsValue t) (k : Path) : trail t k = [] := by
  rcases h with rfl | ⟨v, rfl⟩
  · cases k <;> rfl
  · cases k <;> rfl

theorem trail_short_append (key : Path) (c : Tree) (k : Path) :
    trail (.short key c) (key ++ k) = .short key c :: trail c k := by
  rw [trail, if_pos (prefix_append _ _), drop_left]

/-- The trees on the path are subtrees. -/
theorem sub_of_mem_trail {t u : Tree} {k : Path} (ht : IsValue t ∨ Canonical t)
    (hu : u ∈ trail t k) : ∃ q, t.sub q = some u ∧ Canonical u := by
  induction t generalizing k with
  | nil =>
    cases hu
  | value v =>
    cases hu
  | short key c ih =>
    have hc := ht.resolve_left (not_isValue_short key c)
    have hc' := hc.of_short
    rw [trail, mem_cons] at hu
    rcases hu with rfl | hu
    · exact ⟨[], sub_here _, hc⟩
    · split at hu
      · rcases ih hc'.2 hu with ⟨q, hq, hcu⟩
        exact ⟨key ++ q, by rw [sub_short hc'.1, hq], hcu⟩
      · cases hu
  | full ts ih =>
    have hc := ht.resolve_left (not_isValue_full ts)
    cases k with
    | nil => cases hu
    | cons a k =>
      rw [trail, mem_cons] at hu
      rcases hu with rfl | hu
      · exact ⟨[], sub_here _, hc⟩
      · rcases ih a (hc.of_full a) hu with ⟨q, hq, hcu⟩
        exact ⟨a :: q, hq, hcu⟩

variable [Crypto]
variable {n : Node} {db : Hash → Option Bytes} {m : GoMap Bytes Bytes}

section
variable {T₀ : Tree} {r : Reader}
variable {pre k q : Path} {t c : Tree}

/-- The blob of a node is that of its tree. -/
theorem proofHash_spec {root : Bool} (h : Rep T₀ n root pre t) (hs : Shaped t) (hne : t ≠ .nil)
    (hn : n.isHash = false) : proofHash n = some (enc t) := by
  cases n with
  | nil => exact absurd h hne
  | value v =>
    rcases h with ⟨w, -, rfl⟩
    cases hs
  | hash h' => cases hn
  | short key val fl =>
    rcases h with ⟨c, rfl, hrep, -⟩
    rw [proofHash, enc_short, shortEncode]
    cases hs with
    | leaf v hkey =>
      cases hrep.eq_value
      rw [if_pos (hasTerm_of_terminated hkey), if_pos (hasTerm_of_terminated hkey)]
      rfl
    | ext _ hlast hc hcne =>
      rcases hashNode_spec hrep hc hcne with ⟨n', hhash, -⟩
      rw [hasTerm_of_notMem hlast, hhash]
      rfl
  | full children fl =>
    rcases h with ⟨ts, rfl, hrep, -⟩
    have hchild : ∀ i, (if (children i).isNil then some []
        else if i = 16 then (children i).asValue
        else (hashNode (children i) false).map Prod.fst) = some (ref (ts i)) := by
      intro i
      cases hs with
      | branch hshaped hvalue =>
        by_cases hnil : (children i).isNil = true
        · have ht := (hrep i).isNil_iff.mp hnil
          rw [if_pos hnil, ht]
          rfl
        have ht := (hrep i).isNil_iff.not.mp hnil
        rw [if_neg hnil]
        by_cases hi : i = 16
        · subst hi
          rcases (hrep 16).plain hvalue with ⟨-, hnone⟩ | ⟨w, hn, hw⟩
          · exact absurd hnone ht
          · rw [hn, hw]
            rfl
        · rcases hashNode_spec (hrep i) (hshaped i hi) ht with ⟨n', hhash, -⟩
          rw [if_neg hi, hhash]
          rfl
    rw [proofHash, sequence_eq_some hchild]
    rfl

/-- The nodes `Prove` collects. -/
theorem proveLoop_spec (hT : Base T₀) (hr : Complete r T₀) {fuel : Nat} {root : Bool}
    (hfuel : need n k ≤ fuel) (hrep : Rep T₀ n root pre t) (hk : Fits t k) (nodes : List Node) :
    ∃ ns, proveLoop r fuel n pre k nodes = some (.ok (nodes ++ ns)) ∧
      ns.map proofHash = (trail t k).map fun u => some (enc u) := by
  induction fuel generalizing n root pre t k nodes with
  | zero =>
    have := need_pos n k
    omega
  | succ fuel ih =>
    cases n with
    | nil =>
      cases hrep
      rw [proveLoop, if_pos (.inr rfl)]
      exact ⟨[], by rw [append_nil], rfl⟩
    | value v =>
      rcases hrep with ⟨w, rfl, rfl⟩
      rw [proveLoop, if_pos (.inl hk.value)]
      exact ⟨[], by rw [append_nil], rfl⟩
    | short key val fl =>
      have hrep' := hrep
      rcases hrep with ⟨c, rfl, hrep, hfl⟩
      have hspec := proofHash_spec hrep' hk.shaped_short (by simp) rfl
      have hne := Shaped.key_ne_nil hk.shaped_short
      have hgo : ¬ (k = [] ∨ (Node.short key val fl).isNil = true) := by
        rintro (h | h)
        · exact hk.terminated_short.ne_nil h
        · cases h
      rw [proveLoop, if_neg hgo]
      by_cases hpre : key <+: k
      · simp only [if_pos hpre]
        rcases hpre with ⟨q, rfl⟩
        rcases ih (need_through hne hfuel) hrep hk.of_short (nodes ++ [.short key val fl]) with
          ⟨ns, hns, hmap⟩
        rw [drop_left, hns, trail_short_append, append_assoc]
        refine ⟨.short key val fl :: ns, rfl, ?_⟩
        rw [map_cons, map_cons, hspec, hmap]
      · simp only [if_neg hpre]
        rw [trail, if_neg hpre]
        refine ⟨[.short key val fl], ?_, by rw [map_singleton, map_singleton, hspec]⟩
        cases fuel with
        | zero =>
          have := length_pos_iff.mpr hk.terminated_short.ne_nil
          unfold need at hfuel
          omega
        | succ fuel => rw [proveLoop, if_pos (.inr rfl)]
    | full children fl =>
      have hrep' := hrep
      rcases hrep with ⟨ts, rfl, hrep, hfl⟩
      have hspec := proofHash_spec hrep' (hk.node (not_isValue_full ts)).2 (by simp) rfl
      rcases hk.of_full with ⟨a, q, rfl, hq⟩
      rw [proveLoop]
      rcases ih (need_below hfuel (by simp)) (hrep a) hq (nodes ++ [.full children fl]) with
        ⟨ns, hns, hmap⟩
      simp only [hns, append_assoc]
      refine ⟨.full children fl :: ns, rfl, ?_⟩
      rw [trail, map_cons, map_cons, hspec, hmap]
    | hash h =>
      rcases hrep.hash_load hT with ⟨rfl, hst, rfl, hload⟩
      have hc := hT.sub_canonical hst.1 hst.2.1
      have hvalue : ¬ IsValue t := by
        rw [← isPlain_iff, hst.2.1]
        exact Bool.false_ne_true
      have hgo : ¬ (k = [] ∨ (Node.hash (keccak256 (enc t))).isNil = true) := by
        rintro (h | h)
        · exact (hk.node hvalue).1.ne_nil h
        · cases h
      rcases exists_cons_of_ne_nil (enc_ne_nil hc) with ⟨b, blob, hblob⟩
      have hnode : Reader.node r pre (keccak256 (enc t)) = .ok (enc t) := by
        rw [Reader.node, hr pre t hst, hblob]
      rw [proveLoop, if_neg hgo]
      simp only [hnode, decodeNode_enc hc (hT.bounded.sub hst.1)]
      exact ih (need_load hc hfuel) hload hk nodes

/-! ### One step of the verifier -/

/-- What `get` finds for a key in a decoded blob: nothing, the value, or the hash of a node
    further down, where the rest of the key leads to the same value. -/
inductive Found (t : Tree) (k : Path) (bound : Nat) : Path → Node → Prop
  | absent {k' : Path} : t.lookup k = none → Found t k bound k' .nil
  | value {k' : Path} {v : Value} : t.lookup k = some v → Found t k bound k' (.value v.val)
  | below {k' : Path} {u : Tree} : standalone u = true → Canonical u → FitsCanonical u k' →
      u.lookup k' = t.lookup k → u ∈ trail t k → (∀ w ∈ trail u k', w ∈ trail t k) →
      k'.length < bound → Found t k bound k' (.hash (keccak256 (enc u)))

theorem Found.lift {k' : Path} {bound bound' : Nat} (h : Found c q bound k' n)
    (hlookup : t.lookup k = c.lookup q) (htrail : ∀ w ∈ trail c q, w ∈ trail t k)
    (hbound : bound ≤ bound') : Found t k bound' k' n := by
  cases h with
  | absent hl => exact .absent (hlookup.trans hl)
  | value hl => exact .value (hlookup.trans hl)
  | below hs hc hk hl hu hw hlen =>
    exact .below hs hc hk (hl.trans hlookup.symm) (htrail _ hu) (fun w hmem => htrail w (hw w hmem))
      (by omega)

section
omit [Crypto]

theorem FitsCanonical.of_short {key : Path} (h : FitsCanonical (.short key c) (key ++ q)) :
    FitsCanonical c q := by
  rcases h.node (not_isValue_short key c) with ⟨hk, hc⟩
  cases hc with
  | leaf v hkey => exact .inl ⟨hkey.eq_nil_of_append hk, .inr ⟨v, rfl⟩⟩
  | ext _ hlast hfull => exact .inr ⟨(terminated_append hlast).mp hk, .inr hfull⟩

/-- A canonical tree is on the path to every key. -/
theorem mem_trail_self (hc : Canonical t) (hk : k ≠ []) : t ∈ trail t k := by
  rcases exists_cons_of_ne_nil hk with ⟨a, k, rfl⟩
  cases hc with
  | leaf v hkey | ext _ _ _ | branch _ _ _ => exact mem_cons_self

end

theorem proofGet_load (hk : FitsCanonical t k) (hash : Option Hash) :
    ∃ k' n, proofGet (load t hash) k true = some (k', n) ∧ Found t k k.length k' n := by
  -- a reference is a hash or a node that is looked into
  have href : ∀ {c : Tree} {q : Path}, FitsCanonical c q →
      (∃ k' n, proofGet (load c none) q true = some (k', n) ∧ Found c q q.length k' n) →
      ∃ k' n, proofGet (refNode c) q true = some (k', n) ∧ Found c q (q.length + 1) k' n := by
    intro c q hq hload
    unfold refNode
    by_cases hs : standalone c = true
    · rw [if_pos hs]
      have hvalue : ¬ IsValue c := by
        rw [← isPlain_iff, (standalone_iff.mp hs).1]
        exact Bool.false_ne_true
      have hnode := hq.node hvalue
      exact ⟨_, _, rfl, .below hs hnode.2 hq rfl (mem_trail_self hnode.2 hnode.1.ne_nil)
        (fun w hw => hw) (Nat.lt_succ_self _)⟩
    · rw [if_neg hs]
      rcases hload with ⟨k', n, hget, hfound⟩
      exact ⟨k', n, hget, hfound.lift rfl (fun _ h => h) (Nat.le_succ _)⟩
  induction t generalizing k hash with
  | nil => exact ⟨_, _, rfl, .absent rfl⟩
  | value v =>
    rcases hk with ⟨rfl, -⟩ | ⟨-, h | h⟩
    · exact ⟨_, _, rfl, .value rfl⟩
    · cases h
    · cases h
  | short key c ih =>
    have hne := (hk.node (not_isValue_short key c)).2.of_short.1
    rw [load, proofGet]
    by_cases hpre : key <+: k
    · rcases hpre with ⟨q, rfl⟩
      rcases href hk.of_short (ih hk.of_short none) with ⟨k', n, hget, hfound⟩
      rw [if_pos (prefix_append _ _), drop_left]
      refine ⟨k', n, hget, hfound.lift ?_ ?_ ?_⟩
      · rw [lookup_short, if_pos (prefix_append _ _), drop_left]
      · intro w hw
        rw [trail_short_append]
        exact mem_cons_of_mem _ hw
      · have := length_pos_iff.mpr hne
        rw [length_append]
        omega
    · rw [if_neg hpre]
      exact ⟨_, _, rfl, .absent (by rw [lookup_short, if_neg hpre])⟩
  | full ts ih =>
    rcases hk.of_full with ⟨a, q, rfl, -, hq⟩
    rcases href hq (ih a hq none) with ⟨k', n, hget, hfound⟩
    refine ⟨k', n, ?_, hfound.lift rfl (fun w hw => mem_cons_of_mem _ hw) (by simp)⟩
    exact hget

/-! ### The verifier -/

/-- A store that has, for the hash of a node on the path, that node or nothing. -/
def HonestOn (db : Hash → Option Bytes) (t : Tree) (k : Path) : Prop :=
  ∀ u ∈ trail t k, u = t ∨ standalone u = true →
    db (keccak256 (enc u)) = none ∨ db (keccak256 (enc u)) = some (enc u)

/-- The store has every node on the path. -/
def Supplies (db : Hash → Option Bytes) (t : Tree) (k : Path) : Prop :=
  ∀ u ∈ trail t k, u = t ∨ standalone u = true → db (keccak256 (enc u)) = some (enc u)

/-- The verifier finds what the trie has, or misses a node. -/
theorem verifyLoop_spec (hc : Canonical t) (hb : Bounded t) (hk : FitsCanonical t k)
    (hdb : HonestOn db t k) {fuel : Nat} (hfuel : k.length < fuel) (i : Nat) :
    ∃ res, verifyLoop db fuel i (keccak256 (enc t)) k = some res ∧
      (res = .ok ((t.lookup k).map Subtype.val) ∨
        (∃ j h, res = .error (.missing j h)) ∧ ¬ Supplies db t k) := by
  induction fuel generalizing t k i with
  | zero => omega
  | succ fuel ih =>
    have hvalue : ¬ IsValue t := by
      rw [← isPlain_iff, Canonical.isPlain hc]
      exact Bool.false_ne_true
    have hself := mem_trail_self hc (hk.node hvalue).1.ne_nil
    rw [verifyLoop]
    rcases hdb t hself (.inl rfl) with hnone | hsome
    · simp only [hnone]
      refine ⟨_, rfl, .inr ⟨⟨_, _, rfl⟩, fun hall => ?_⟩⟩
      rw [hall t hself (.inl rfl)] at hnone
      cases hnone
    simp only [hsome, decodeNode_enc hc hb]
    rcases proofGet_load hk (some (keccak256 (enc t))) with ⟨k', n, hget, hfound⟩
    simp only [hget]
    cases hfound with
    | absent hl | value hl =>
      rw [hl]
      exact ⟨_, rfl, .inl rfl⟩
    | @below u hs hcu hku hl hu hw hlen =>
      rcases sub_of_mem_trail (.inr hc) hu with ⟨q, hq, -⟩
      have hbu : Bounded u := Bounded.sub hb hq
      have hdbu : HonestOn db u k' := by
        intro w hmem hor
        refine hdb w (hw w hmem) (.inr ?_)
        rcases hor with rfl | h
        · exact hs
        · exact h
      rcases ih hcu hbu hku hdbu (by omega) (i + 1) with ⟨res, hres, hspec⟩
      refine ⟨res, hres, ?_⟩
      rw [hl] at hspec
      refine hspec.imp_right fun hmiss => ⟨hmiss.1, fun hall => hmiss.2 fun w hmem hor => ?_⟩
      refine hall w (hw w hmem) (.inr ?_)
      rcases hor with rfl | h
      · exact hs
      · exact h

/-! ### Proofs -/

/-- The blobs of a trie's nodes. -/
def nodeBlobs (t : Tree) : Set Bytes := { b | ∃ p u, Stored t p u ∧ b = enc u }

/-- Every entry of a store is a blob of the set under its hash. -/
def Honest (db : Hash → Option Bytes) (blobs : Set Bytes) : Prop :=
  ∀ h b, db h = some b → b ∈ blobs ∧ keccak256 b = h

/-- What goes into a proof is a node of the trie. -/
theorem mem_nodeBlobs {u : Tree} (hc : Canonical t) (hu : u ∈ trail t k)
    (hor : u = t ∨ standalone u = true) : enc u ∈ nodeBlobs t := by
  rcases hor with rfl | hs
  · exact ⟨[], u, ⟨sub_here u, Canonical.isPlain hc, .inl rfl⟩, rfl⟩
  · rcases sub_of_mem_trail (.inr hc) hu with ⟨q, hq, -⟩
    exact ⟨q, u, ⟨hq, (standalone_iff.mp hs).1, .inr (standalone_iff.mp hs).2⟩, rfl⟩

variable {blobs : Set Bytes}

theorem Honest.on (h : Honest db blobs) (hinj : Set.InjOn keccak256 blobs) (hc : Canonical t)
    (ht : nodeBlobs t ⊆ blobs) (k : Path) : HonestOn db t k := by
  intro u hu hor
  cases hb : db (keccak256 (enc u)) with
  | none => exact .inl rfl
  | some b =>
    right
    have hmem := h _ b hb
    rw [hinj hmem.1 (ht (mem_nodeBlobs hc hu hor)) hmem.2]

/-- One blob, written if it is large or the first. -/
def putBlob (db : GoMap Hash Bytes) (x : Bytes × Nat) : GoMap Hash Bytes :=
  if 32 ≤ x.1.length ∨ x.2 = 0 then db.insert (keccak256 x.1) x.1 else db

theorem foldlM_putProof {ns : List Node} {us : List Tree}
    (h : ns.map proofHash = us.map fun u => some (enc u)) (db : GoMap Hash Bytes) (j : Nat) :
    (ns.zipIdx j).foldlM putProof db = some (((us.map enc).zipIdx j).foldl putBlob db) := by
  induction ns generalizing us db j with
  | nil =>
    cases us with
    | nil => rfl
    | cons u us => cases h
  | cons n ns ih =>
    cases us with
    | nil => cases h
    | cons u us =>
      rw [map_cons, map_cons, cons.injEq] at h
      rw [zipIdx_cons, foldlM_cons, putProof, h.1, map_cons]
      exact ih h.2 _ _

variable {db : GoMap Hash Bytes}

/-- Writing one blob of the set. -/
theorem putBlob_spec (hinj : Set.InjOn keccak256 blobs) {x : Bytes × Nat}
    (hx : 32 ≤ x.1.length ∨ x.2 = 0 → x.1 ∈ blobs) (hdb : Honest db.lookup blobs) :
    Honest (putBlob db x).lookup blobs ∧
      (∀ h b, db.lookup h = some b → (putBlob db x).lookup h = some b) ∧
      (32 ≤ x.1.length ∨ x.2 = 0 → (putBlob db x).lookup (keccak256 x.1) = some x.1) := by
  unfold putBlob
  by_cases hput : 32 ≤ x.1.length ∨ x.2 = 0
  · simp only [if_pos hput]
    refine ⟨GoMap.forall_insert hdb ⟨hx hput, rfl⟩, fun h b hb => ?_,
      fun _ => Finmap.lookup_insert _⟩
    simp only [GoMap.lookup_insert_ite]
    split
    · rename_i heq
      have hmem := hdb h b hb
      rw [hinj (hx hput) hmem.1 (heq.symm.trans hmem.2.symm)]
    · exact hb
  · simp only [if_neg hput]
    exact ⟨hdb, fun h b hb => hb, fun h => absurd h hput⟩

/-- Writing blobs of the set keeps what is there and adds what is written. -/
theorem foldl_putBlob (hinj : Set.InjOn keccak256 blobs) {xs : List (Bytes × Nat)}
    (hxs : ∀ x ∈ xs, 32 ≤ x.1.length ∨ x.2 = 0 → x.1 ∈ blobs) (hdb : Honest db.lookup blobs) :
    Honest (xs.foldl putBlob db).lookup blobs ∧
      (∀ h b, db.lookup h = some b → (xs.foldl putBlob db).lookup h = some b) ∧
      ∀ x ∈ xs, 32 ≤ x.1.length ∨ x.2 = 0 →
        (xs.foldl putBlob db).lookup (keccak256 x.1) = some x.1 := by
  induction xs generalizing db with
  | nil => exact ⟨hdb, fun h b hb => hb, nofun⟩
  | cons x xs ih =>
    rcases putBlob_spec hinj (hxs x mem_cons_self) hdb with ⟨hhonest, hkeep, hnew⟩
    rcases ih (fun y hy => hxs y (mem_cons_of_mem _ hy)) hhonest with
      ⟨hhonest', hkeep', hnew'⟩
    refine ⟨hhonest', fun h b hb => hkeep' h b (hkeep h b hb), fun y hy hput => ?_⟩
    rcases mem_cons.mp hy with rfl | hy
    · exact hkeep' _ _ (hnew hput)
    · exact hnew' y hy hput

omit [Crypto] in
/-- A path starts with the tree itself. -/
theorem trail_head (h : trail t k ≠ []) : ∃ us, trail t k = t :: us := by
  cases t with
  | nil => exact absurd (trail_isValue (.inl rfl) k) h
  | value v => exact absurd (trail_isValue (.inr ⟨v, rfl⟩) k) h
  | short key c => exact ⟨_, rfl⟩
  | full ts =>
    cases k with
    | nil => exact absurd rfl h
    | cons a k => exact ⟨_, rfl⟩

/-- The blobs `Prove` writes, by index. -/
theorem mem_blobs_zipIdx {x : Bytes × Nat} :
    x ∈ ((trail t k).map enc).zipIdx ↔ ∃ u, (trail t k)[x.2]? = some u ∧ x.1 = enc u := by
  rw [mem_zipIdx_iff_getElem?, getElem?_map, Option.map_eq_some_iff]
  simp only [eq_comm]

/-- **What `Prove` writes**: nodes of the trie, and all that are on the path. -/
theorem TrieInv.prove {trie : Trie} (h : TrieInv T₀ m trie t) (hr : Complete trie.reader T₀)
    (key : Bytes) (hinj : Set.InjOn keccak256 blobs) (hblobs : nodeBlobs t ⊆ blobs)
    (hdb : Honest db.lookup blobs) :
    ∃ db', trie.prove key db = some (.ok db') ∧ Honest db'.lookup blobs ∧
      (∀ h b, db.lookup h = some b → db'.lookup h = some b) ∧
      Supplies db'.lookup t (keybytesToHex key) := by
  rcases proveLoop_spec h.base hr (need_le_depth trie.root key) h.rep (h.contents.fits key) [] with
    ⟨ns, hloop, hmap⟩
  have hres := foldlM_putProof hmap db 0
  have hxs : ∀ x ∈ ((trail t (keybytesToHex key)).map enc).zipIdx,
      32 ≤ x.1.length ∨ x.2 = 0 → x.1 ∈ blobs := by
    intro x hx hput
    rcases mem_blobs_zipIdx.mp hx with ⟨u, hu, heq⟩
    have hmem := mem_of_getElem? hu
    rcases trail_head (ne_nil_of_mem hmem) with ⟨us, hhead⟩
    have ht : t ≠ .nil := by
      rintro rfl
      cases hmem
    have hc := h.contents.canonical.resolve_left ht
    rw [heq]
    refine hblobs (mem_nodeBlobs hc hmem ?_)
    rcases hput with hlen | hzero
    · right
      rcases sub_of_mem_trail (.inr hc) hmem with ⟨q, -, hcu⟩
      exact standalone_iff.mpr ⟨Canonical.isPlain hcu, heq ▸ hlen⟩
    · left
      rw [hzero, hhead] at hu
      cases hu
      rfl
  rcases foldl_putBlob hinj hxs hdb with ⟨hhonest, hkeep, hnew⟩
  refine ⟨_, ?_, hhonest, hkeep, fun u hu hor => ?_⟩
  · unfold Trie.prove
    rw [h.open_]
    simp [hloop, hres]
  · rcases hor with rfl | hs
    · rcases trail_head (ne_nil_of_mem hu) with ⟨us, hhead⟩
      refine hnew (enc u, 0) (mem_blobs_zipIdx.mpr ⟨u, ?_, rfl⟩) (.inr rfl)
      rw [hhead]
      rfl
    · rcases mem_iff_getElem?.mp hu with ⟨i, hi⟩
      exact hnew (enc u, i) (mem_blobs_zipIdx.mpr ⟨u, hi, rfl⟩) (.inl (standalone_iff.mp hs).2)

end

/-! ### Sound and complete -/

/-- The blobs that occur with a trie and a store. -/
def occurring (t : Tree) (db : Hash → Option Bytes) : Set Bytes :=
  nodeBlobs t ∪ { b | b = Rlp.emptyString ∨ ∃ h, db h = some b }

/-- Against the empty root nothing is accepted. -/
theorem verifyProof_empty (hdb : ∀ h b, db h = some b → keccak256 b = h)
    (hinj : Set.InjOn keccak256 (occurring .nil db))
    (hempty : keccak256 Rlp.emptyString = emptyRootHash) (key : Bytes) :
    ∃ err, verifyProof emptyRootHash key db = some (.error err) := by
  unfold verifyProof
  rw [verifyLoop]
  cases hb : db emptyRootHash with
  | none => exact ⟨_, rfl⟩
  | some b =>
    have hblob : b = Rlp.emptyString :=
      hinj (.inr (.inr ⟨_, hb⟩)) (.inr (.inl rfl)) ((hdb _ b hb).trans hempty.symm)
    subst hblob
    exact ⟨_, rfl⟩

/-- The verifier on a store of blobs under their hashes. -/
theorem Contents.verifyProof {t : Tree} (h : Contents t m) (ht : t ≠ .nil) {blobs : Set Bytes}
    (hdb : Honest db blobs) (hinj : Set.InjOn keccak256 blobs) (hblobs : nodeBlobs t ⊆ blobs)
    (key : Bytes) :
    ∃ res, verifyProof (rootHash t) key db = some res ∧ (res = .ok (m.lookup key) ∨
      (∃ j h, res = .error (.missing j h)) ∧ ¬ Supplies db t (keybytesToHex key)) := by
  have hc := h.canonical.resolve_left ht
  rw [rootHash_of_ne ht, h.lookup]
  exact verifyLoop_spec hc h.bounded (.inr ⟨terminated_keybytesToHex key, h.canonical⟩)
    (hdb.on hinj hc hblobs _)
    (Nat.lt_succ_self _) 0

/-- A trie that calls leave. -/
theorem Opened.run {r : Reader} {T₀ : Tree} {trie trie' : Trie} {ops : List TrieOp}
    (hopen : Opened r T₀ m trie) (hr : Complete r T₀) (hops : ∀ op ∈ ops, op.Valid)
    (hrun : trie.run ops = some trie') :
    ∃ t, TrieInv T₀ (ops.foldl effect m) trie' t ∧ Complete trie'.reader T₀ := by
  rcases hopen.inv with ⟨hinv, -, rfl⟩
  rcases hinv.run hr hops with ⟨trie'', t, hrun', hreader, hinv'⟩
  cases hrun.symm.trans hrun'
  exact ⟨t, hinv', hreader ▸ hr⟩

/-- **Merkle proofs.**  For a trie that is reached by any calls: unless it is empty, what
    `Prove` writes makes `VerifyProof` return the value of the key; and whatever store of
    blobs under their hashes `VerifyProof` is given, it returns, and a result without error
    is the value of the key. -/
theorem merkle_proofs {r : Reader} {T₀ : Tree} {m : GoMap Bytes Bytes} {trie : Trie}
    (hopen : Opened r T₀ m trie) (hcomplete : Complete r T₀) {ops : List TrieOp}
    (hops : ∀ op ∈ ops, op.Valid) {trie' : Trie} (hrun : trie.run ops = some trie')
    (hempty : keccak256 Rlp.emptyString = emptyRootHash) :
    ∃ t h trie'', Contents t (ops.foldl TrieOp.effect m) ∧ trie'.hash = some (h, trie'') ∧
      (ops.foldl TrieOp.effect m ≠ ∅ → Set.InjOn keccak256 (nodeBlobs t) →
        ∀ key, ∃ db, trie'.prove key ∅ = some (.ok db) ∧
          verifyProof h key db.lookup = some (.ok ((ops.foldl TrieOp.effect m).lookup key))) ∧
      ∀ db : Hash → Option Bytes, (∀ h b, db h = some b → keccak256 b = h) →
        Set.InjOn keccak256 (occurring t db) → ∀ key, ∃ res, verifyProof h key db = some res ∧
          ∀ v, res = .ok v → v = (ops.foldl TrieOp.effect m).lookup key := by
  rcases hopen.run hcomplete hops hrun with ⟨t, hinv', hcomplete⟩
  rcases hinv'.toHolds.hash with ⟨trie'', hhash, -⟩
  have hc := hinv'.contents
  refine ⟨t, _, trie'', hc, hhash, fun hm hinj key => ?_, fun db hdb hinj key => ?_⟩
  · have ht : t ≠ .nil := by
      rintro rfl
      refine hm (Finmap.ext_lookup fun key => ?_)
      rw [hc.lookup]
      rfl
    have hnone : Honest (∅ : GoMap Hash Bytes).lookup (nodeBlobs t) := by
      intro h b hb
      simp at hb
    rcases hinv'.prove hcomplete key hinj subset_rfl hnone with ⟨db, hprove, hdb, -, hsupplies⟩
    refine ⟨db, hprove, ?_⟩
    rcases hc.verifyProof ht hdb hinj subset_rfl key with ⟨res, hres, rfl | ⟨-, hnot⟩⟩
    · exact hres
    · exact absurd hsupplies hnot
  · by_cases ht : t = .nil
    · subst ht
      rcases verifyProof_empty hdb hinj hempty key with ⟨err, herr⟩
      exact ⟨_, herr, nofun⟩
    · have hhonest : Honest db (occurring t db) := fun h b hb => ⟨.inr (.inr ⟨h, hb⟩), hdb h b hb⟩
      rcases hc.verifyProof ht hhonest hinj Set.subset_union_left key with
        ⟨res, hres, rfl | ⟨⟨j, h, rfl⟩, -⟩⟩
      · refine ⟨_, hres, fun v hv => ?_⟩
        cases hv
        rfl
      · exact ⟨_, hres, nofun⟩

omit [Crypto] in
/-- A hash function with the hash of the empty root. -/
@[reducible] def emptyRootCrypto : Crypto where
  keccak256 bs := if bs = Rlp.emptyString then emptyRootHash else numberCrypto.keccak256 bs

/-- The blobs of all nodes of a tree. -/
def blobsOf : Tree → List Bytes
  | .short key child => enc (.short key child) :: blobsOf child
  | .full children =>
    enc (.full children) :: (List.finRange 17).flatMap fun i => blobsOf (children i)
  | _ => []

theorem mem_blobsOf_of_mem_nodeBlobs {t : Tree} {b : Bytes} (h : b ∈ nodeBlobs t) :
    b ∈ blobsOf t := by
  rcases h with ⟨p, u, ⟨hsub, hplain, -⟩, rfl⟩
  replace hsub := below_of_sub hsub
  induction hsub with
  | here =>
    cases u with
    | short _ _ | full _ => exact mem_cons_self
    | nil | value _ => cases hplain
  | short _ _ ih => exact mem_cons_of_mem _ ih
  | full _ ih => exact mem_cons_of_mem _ (mem_flatMap.mpr ⟨_, mem_finRange _, ih⟩)

/-- Calls that leave the two leaves, and a key that comes and goes. -/
def twoUpdates : List TrieOp :=
  [.update [0x11] (replicate 32 1), .update [0x31] [3], .hash, .update [0x21] (replicate 32 2),
    .delete [0x31]]

section
omit [Crypto]

theorem valid_twoUpdates : ∀ op ∈ twoUpdates, op.Valid := by
  simp [twoUpdates, Valid, ValidKey, ValidValue]

theorem effect_twoUpdates : twoUpdates.foldl effect ∅ = twoPairs := by
  decide +kernel

theorem injOn_twoLeaves :
    letI := emptyRootCrypto
    Set.InjOn keccak256 ({Rlp.emptyString} ∪ nodeBlobs twoLeaves) := by
  let _ : Crypto := emptyRootCrypto
  have hall : ∀ b ∈ Rlp.emptyString :: blobsOf twoLeaves,
    ∀ c ∈ Rlp.emptyString :: blobsOf twoLeaves,
      keccak256 b = keccak256 c → b = c := by decide +kernel
  have hmem : {Rlp.emptyString} ∪ nodeBlobs twoLeaves ⊆
      { b | b ∈ Rlp.emptyString :: blobsOf twoLeaves } := by
    rintro b (rfl | hb)
    · exact mem_cons_self
    · exact mem_cons_of_mem _ (mem_blobsOf_of_mem_nodeBlobs hb)
  exact fun b hb c hc => hall b (hmem hb) c (hmem hc)

/-- The empty trie, and what the calls make of it. -/
theorem opened_twoUpdates :
    letI := emptyRootCrypto
    ∃ trie trie', Opened (fun _ _ => none) .nil ∅ trie ∧ trie.run twoUpdates = some trie' := by
  let _ : Crypto := emptyRootCrypto
  obtain ⟨trie, hnew⟩ : ∃ trie, newTrie emptyRootHash (fun _ _ => none) = .ok trie :=
    ⟨_, if_neg fun h => h.2 rfl⟩
  have hopen : Opened (fun _ _ => none) .nil ∅ trie := .empty (.inr rfl) hnew
  have hreader := hopen.inv.2.2
  rcases hopen.inv.1.run (hreader ▸ complete_nil _) valid_twoUpdates with ⟨trie', -, hrun, -⟩
  exact ⟨trie, trie', hopen, hrun⟩

/-- Every key is proved, the one that is gone included. -/
theorem merkle_proofs_twoLeaves :
    letI := emptyRootCrypto
    ∃ (trie trie' trie'' : Trie) (h : Hash), Opened (fun _ _ => none) .nil ∅ trie ∧
      trie.run twoUpdates = some trie' ∧ trie'.hash = some (h, trie'') ∧
      ∀ key, ∃ db, trie'.prove key ∅ = some (.ok db) ∧
        verifyProof h key db.lookup = some (.ok (twoPairs.lookup key)) := by
  let _ : Crypto := emptyRootCrypto
  rcases opened_twoUpdates with ⟨trie, trie', hopen, hrun⟩
  rcases merkle_proofs hopen (complete_nil _) valid_twoUpdates hrun (if_pos rfl) with
    ⟨t, h, trie'', hc, hhash, hcomplete, -⟩
  rw [effect_twoUpdates] at hc hcomplete
  obtain rfl := hc.unique contents_twoLeaves
  exact ⟨trie, trie', trie'', h, hopen, hrun, hhash,
    hcomplete (by decide) (injOn_twoLeaves.mono Set.subset_union_right)⟩

end

omit [Crypto] in
/-- An empty trie proves nothing: the verifier asks for a root node. -/
theorem empty_trie_not_proved :
    letI := emptyRootCrypto
    ∃ trie : Trie, newTrie emptyRootHash (fun _ _ => none) = .ok trie ∧
      (trie.hash.map Prod.fst) = some emptyRootHash ∧
      (trie.get [0x12]).map Prod.fst = some (.ok none) ∧
      trie.prove [0x12] ∅ = some (.ok ∅) ∧
      verifyProof emptyRootHash [0x12] (∅ : GoMap Hash Bytes).lookup =
        some (.error (.missing 0 emptyRootHash)) :=
  ⟨_, if_neg fun h => h.2 rfl, rfl, rfl, rfl, rfl⟩

/-! ### Roots -/

section
variable {blobs : Set Bytes} {m m' : GoMap Bytes Bytes} {trie trie' : Trie} {T₀ T₀' t t' : Tree}
variable (hinj : Set.InjOn keccak256 blobs) (hmem : Rlp.emptyString ∈ blobs)
variable (hempty : keccak256 Rlp.emptyString = emptyRootHash)
variable (h : TrieInv T₀ m trie t) (hr : Complete trie.reader T₀) (hb : nodeBlobs t ⊆ blobs)
variable (hb' : nodeBlobs t' ⊆ blobs)
include hinj hmem hempty h hr hb hb'

/-- What `Prove` writes for a trie is accepted against every tree with its root. -/
theorem TrieInv.eq_of_rootHash (ht : t ≠ .nil) (h' : Contents t' m')
    (hroot : rootHash t = rootHash t') : m = m' := by
  refine Finmap.ext_lookup fun key => ?_
  have hnone : Honest (∅ : GoMap Hash Bytes).lookup blobs := fun h b hb => by simp at hb
  rcases h.prove hr key hinj hb hnone with ⟨db, -, hdb, -, hsupplies⟩
  rcases h.contents.verifyProof ht hdb hinj hb key with ⟨res, hres, rfl | ⟨-, hnot⟩⟩
  · rw [hroot] at hres
    by_cases ht' : t' = .nil
    · subst ht'
      have hsub : occurring .nil db.lookup ⊆ blobs := by
        rintro b (hb | rfl | ⟨h, hb⟩)
        · exact hb' hb
        · exact hmem
        · exact (hdb h b hb).1
      rcases verifyProof_empty (fun h b hb => (hdb h b hb).2) (hinj.mono hsub) hempty key with
        ⟨err, herr⟩
      cases hres.symm.trans herr
    · rcases h'.verifyProof ht' hdb hinj hb' key with ⟨res, hres', rfl | ⟨⟨j, h, rfl⟩, -⟩⟩
      · exact Except.ok.inj (Option.some.inj (hres.symm.trans hres'))
      · cases hres.symm.trans hres'
  · exact absurd hsupplies hnot

theorem TrieInv.hash_inj_iff (h' : TrieInv T₀' m' trie' t') (hr' : Complete trie'.reader T₀') :
    ∃ x x', trie.hash = some x ∧ trie'.hash = some x' ∧ (x.1 = x'.1 ↔ m = m') := by
  rcases h.toHolds.hash with ⟨_, hhash, -⟩
  rcases h'.toHolds.hash with ⟨_, hhash', -⟩
  have hc := h.contents
  have hc' := h'.contents
  refine ⟨_, _, hhash, hhash', fun hroot => ?_, ?_⟩
  · by_cases ht : t = .nil
    · by_cases ht' : t' = .nil
      · subst ht ht'
        exact Finmap.ext_lookup fun key => (hc.lookup key).trans (hc'.lookup key).symm
      · exact (h'.eq_of_rootHash hinj hmem hempty hr' hb' hb ht' hc hroot.symm).symm
    · exact h.eq_of_rootHash hinj hmem hempty hr hb hb' ht hc' hroot
  · rintro rfl
    rw [hc.unique hc']

end

/-- **The root commits to the map.**  Two tries as calls leave them have the same hash if and
    only if they hold the same map, if the hash function does not collide on their nodes. -/
theorem hash_eq_iff {r r' : Reader} {T₀ T₀' : Tree} {m m' : GoMap Bytes Bytes}
    {start start' trie trie' : Trie} {ops ops' : List TrieOp}
    (hempty : keccak256 Rlp.emptyString = emptyRootHash)
    (hopen : Opened r T₀ m start) (hr : Complete r T₀) (hops : ∀ op ∈ ops, op.Valid)
    (hrun : start.run ops = some trie)
    (hopen' : Opened r' T₀' m' start') (hr' : Complete r' T₀') (hops' : ∀ op ∈ ops', op.Valid)
    (hrun' : start'.run ops' = some trie') :
    ∃ t t', Contents t (ops.foldl effect m) ∧ Contents t' (ops'.foldl effect m') ∧
      (Set.InjOn keccak256 ({Rlp.emptyString} ∪ nodeBlobs t ∪ nodeBlobs t') →
        ∃ x x', trie.hash = some x ∧ trie'.hash = some x' ∧
          (x.1 = x'.1 ↔ ops.foldl effect m = ops'.foldl effect m')) := by
  rcases hopen.run hr hops hrun with ⟨t, h, hreader⟩
  rcases hopen'.run hr' hops' hrun' with ⟨t', h', hreader'⟩
  refine ⟨t, t', h.contents, h'.contents, fun hinj => ?_⟩
  have hb : nodeBlobs t ⊆ {Rlp.emptyString} ∪ nodeBlobs t ∪ nodeBlobs t' :=
    Set.subset_union_right.trans Set.subset_union_left
  have hb' : nodeBlobs t' ⊆ {Rlp.emptyString} ∪ nodeBlobs t ∪ nodeBlobs t' :=
    Set.subset_union_right
  exact h.hash_inj_iff hinj (.inl (.inl rfl)) hempty hreader hb hb' h' hreader'

omit [Crypto] in
/-- Another way to the same two leaves gives the same root. -/
theorem hash_eq_iff_twoLeaves :
    letI := emptyRootCrypto
    ∃ start trie trie' x x', Opened (fun _ _ => none) .nil ∅ start ∧
      start.run twoUpdates = some trie ∧
      start.run [.update [0x21] (replicate 32 2), .update [0x11] (replicate 32 1)] = some trie' ∧
      trie.hash = some x ∧ trie'.hash = some x' ∧ x.1 = x'.1 := by
  let _ : Crypto := emptyRootCrypto
  rcases opened_twoUpdates with ⟨start, trie, hopen, hrun⟩
  have hreader := hopen.inv.2.2
  have hops : ∀ op ∈ [update [0x21] (replicate 32 2), .update [0x11] (replicate 32 1)],
      op.Valid := by simp [Valid, ValidKey, ValidValue]
  have heffect : [update [0x21] (replicate 32 2), .update [0x11] (replicate 32 1)].foldl effect ∅ =
      twoPairs := by decide +kernel
  rcases hopen.inv.1.run (hreader ▸ complete_nil _) hops with ⟨trie', -, hrun', -⟩
  rcases hash_eq_iff (if_pos rfl) hopen (complete_nil _) valid_twoUpdates hrun hopen
    (complete_nil _) hops hrun' with ⟨t, t', hc, hc', hiff⟩
  rw [effect_twoUpdates] at hc hiff
  rw [heffect] at hc' hiff
  obtain rfl := hc.unique contents_twoLeaves
  obtain rfl := hc'.unique contents_twoLeaves
  have hinj : Set.InjOn keccak256
    ({Rlp.emptyString} ∪ nodeBlobs twoLeaves ∪ nodeBlobs twoLeaves) := by
    rw [Set.union_assoc, Set.union_self]
    exact injOn_twoLeaves
  rcases hiff hinj with ⟨x, x', hx, hx', heq⟩
  exact ⟨start, trie, trie', x, x', hopen, hrun, hrun', hx, hx', heq.mpr rfl⟩

end GethArb.MPT
