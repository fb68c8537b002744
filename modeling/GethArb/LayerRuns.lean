/-
  **Runs of the layer tree.**

  `Built` are the trees that adding layers, flattening them and background flushes build
  from a disk layer, with the state of every root.  Two questions are settled for them.

    * Does the index find what a walk over the layers finds?  It does if no root is the zero
      hash, which the index uses for "not found", and no root comes back while the tree
      remembers its first layer (`lookup_reads_state`, `lookup_misreads`).
    * Does `cap` leave the layers that stay as they were?  It does exactly if the layer it
      walked to is the only child of the layer it flattens (`cap_keeps_nodes_iff`,
      `cap_breaks_sibling`): a sibling keeps the old object, over a disk layer that is stale.
-/
import GethArb.LayerCap

namespace GethArb.Pathdb

open Forest Finmap Pathdb.Database Capped Option Settled Added

/-! ### Operations -/

inductive Op
  | add (root parentRoot : Hash) (block : Nat) (nodes : NodeSetWithOrigin)
      (states : StateSetWithOrigin)
  | cap (cfg : Config) (ord : RangeOrder Hash) (early : Nat → Bool) (root : Hash) (layers : Nat)
  | settle

namespace Op

def run (db : Database) : Op → Except LayerError Database
  | add root parentRoot block nodes states => db.add root parentRoot block nodes states
  | cap cfg ord early root layers => db.cap cfg ord early root layers
  | settle => .ok db.settle

/-- The states of the roots after an operation: a new layer has the state of its parent
    overridden by its own sets. -/
def states (σ : Hash → View) : Op → Hash → View
  | add root parentRoot _ nodes states =>
    Function.update σ root ((σ parentRoot).override nodes.toNodeSet states.toStateSet)
  | cap _ _ _ _ _ => σ
  | settle => σ

/-- The root that is added is new to the tree. -/
def New (db : Database) : Op → Prop
  | add root _ _ _ _ => root ∉ db.layers
  | cap _ _ _ _ _ => True
  | settle => True

instance (db : Database) : DecidablePred (New db)
  | add root _ _ _ _ => inferInstanceAs (Decidable (root ∉ db.layers))
  | cap _ _ _ _ _ | settle => isTrue trivial

end Op

/-- A disk layer that a tree may start from: it is in use, what it flushed is in the store,
    and the histories up to its id are in the freezer. -/
structure Start (m : Memory) (disk : DiskLayer) : Prop where
  heap : m.heap = [.disk disk]
  alive : disk.stale = false
  flushed : Flushed m.kv disk.frozen
  histories : m.freezer.ancients = disk.id

/-- The trees built from a disk layer whose root satisfies `C₀` by operations that satisfy `C`
    and succeed. -/
inductive Built (C₀ : Hash → Prop) (C : Database → Op → Prop) : Database → (Hash → View) → Prop
  | start {m : Memory} {disk : DiskLayer} (hstart : Start m disk) (hroot : C₀ disk.root) :
      Built C₀ C (newLayerTree m 0 disk) fun _ => disk.view m.kv
  | step {db db' : Database} {σ : Hash → View} {op : Op} (h : Built C₀ C db σ) (hop : C db op)
      (hrun : op.run db = .ok db') : Built C₀ C db' (op.states σ)

/-- A list of operations that satisfy `C`, one after the other. -/
def Op.runAll (C : Database → Op → Prop) [∀ db, DecidablePred (C db)] :
    List Op → Database → Option Database
  | [], db => some db
  | op :: ops, db => if C db op then (op.run db).toOption.bind (runAll C ops) else none

variable {C : Database → Op → Prop}
variable {C₀ : Hash → Prop}

open Op

theorem Built.runAll [∀ db, DecidablePred (C db)] :
    ∀ {ops : List Op} {db db' : Database} {σ : Hash → View}, Built C₀ C db σ →
      runAll C ops db = some db' → Built C₀ C db' (ops.foldl states σ) := by
  intro ops
  induction ops with
  | nil =>
    intro db db' σ h hrun
    cases hrun
    exact h
  | cons op ops ih =>
    intro db db' σ h hrun
    simp only [Op.runAll] at hrun
    split at hrun
    · rename_i hop
      obtain ⟨db₁, hdb₁, hrest⟩ := bind_eq_some_iff.mp hrun
      cases hstep : op.run db with
      | error e =>
        rw [hstep] at hdb₁
        cases hdb₁
      | ok db₂ =>
        rw [hstep] at hdb₁
        cases hdb₁
        exact ih (h.step hop hstep) hrest
    · cases hrun

variable {σ : Hash → View} {db : Database}

open Built

theorem Built.mono {C' : Database → Op → Prop} (hC : ∀ db op, C db op → C' db op)
    (h : Built C₀ C db σ) : Built C₀ C' db σ := by
  induction h with
  | start hstart hroot => exact start hstart hroot
  | step _ hop hrun ih => exact ih.step (hC _ _ hop) hrun

variable {disk : DiskLayer} {m : Memory}

theorem Start.inv (h : Start m disk) : MemInv m 0 disk := by
  have hget : ∀ (q : Ptr) (l : Layer), m.heap[q]? = some l → q = 0 ∧ l = .disk disk := by
    intro q l hq
    rw [h.heap] at hq
    cases q with
    | zero => exact ⟨rfl, (Option.some.inj hq).symm⟩
    | succ q => cases hq
  refine ⟨?_, ?_, h.alive, h.flushed, h.histories, ?_⟩
  · intro q dl hq
    cases (hget q _ hq).2
  · rw [h.heap]
    rfl
  · exact fun q dl hq hne => absurd (hget q _ hq).1 hne

/-! ### Lookups -/

/-- The root that is added is not the zero hash, and the tree remembers no layer with it. -/
def Op.Distinct (db : Database) : Op → Prop
  | add root _ _ _ _ => root ≠ 0 ∧ Fresh db root
  | cap _ _ _ _ _ => True
  | settle => True

theorem Built.tree (h : Built (· ≠ 0) Distinct db σ) :
    (∃ disk, TreeInv db disk σ) ∧ (0 : Hash) ∉ db.layers := by
  induction h with
  | @start m disk hstart hroot =>
    refine ⟨⟨disk, TreeInv.newLayerTree hstart.inv rfl⟩, fun h0 => ?_⟩
    exact hroot ((mem_singleton _ _ _).mp h0).symm
  | @step db db' σ op _ hop hrun ih =>
    obtain ⟨⟨disk, hinv⟩, hzero⟩ := ih
    cases op with
    | add root parentRoot block nodes states =>
      obtain ⟨id, q, a⟩ := add_spec hrun
      refine ⟨⟨disk, hinv.add hop.2 a⟩, fun h0 => ?_⟩
      rcases (a.mem_iff 0).mp h0 with h0 | h0
      · exact hop.1 h0.symm
      · exact hzero h0
    | cap cfg ord early root layers =>
      obtain ⟨disk', hinv', hsub⟩ := hinv.cap hrun
      exact ⟨⟨disk', hinv'⟩, fun h0 => hzero (hsub 0 h0)⟩
    | settle =>
      cases hrun
      obtain ⟨disk', e⟩ := hinv.settled
      refine ⟨⟨disk', inv hinv e⟩, ?_⟩
      rw [e.layers_eq]
      exact hzero

/-- **The index finds the state of a root.**  For a root of the tree, the layer it gives reads
    as the state of the root; for any other there is an error. -/
theorem lookup_reads_state {db : Database} {σ : Hash → View} (h : Built (· ≠ 0) Op.Distinct db σ)
    (r : Hash) :
    (r ∈ db.layers →
      (∀ x, ∃ p b, db.lookupAccount x r = .ok p ∧ db.account p x = .ok b ∧
        bytesOf b = (σ r).flat.account x) ∧
      ∀ a k, ∃ p b, db.lookupStorage a k r = .ok p ∧ db.storage p a k = .ok b ∧
        bytesOf b = (σ r).flat.storage a k) ∧
    (r ∉ db.layers →
      (∀ x, db.lookupAccount x r = .error (.staleState r)) ∧
      ∀ a k, db.lookupStorage a k r = .error (.staleState r)) := by
  obtain ⟨⟨disk, hinv⟩, hzero⟩ := h.tree
  constructor
  · intro hr
    constructor
    · exact fun x => (hinv.lookupAccount_spec hzero x r).1 hr
    · exact fun a k => (hinv.lookupStorage_spec hzero a k r).1 hr
  · intro hr
    constructor
    · exact fun x => (hinv.lookupAccount_spec hzero x r).2 hr
    · exact fun a k => (hinv.lookupStorage_spec hzero a k r).2 hr

instance (db : Database) (root : Hash) : Decidable (Fresh db root) :=
  -- by the roots of the tree, not by all words
  haveI : Decidable (∀ r ∈ db.layers.keys, ∀ p ∈ db.layers.lookup r, root ∉ ancestors db.heap p) :=
    Finset.decidableDforallFinset
  decidable_of_iff (root ∉ db.layers ∧
      (∀ r ∈ db.layers.keys, ∀ p ∈ db.layers.lookup r, root ∉ ancestors db.heap p) ∧
      GoMap.get db.descendants root = ∅)
    ⟨fun h => ⟨h.1, fun r p hp => h.2.1 r (mem_keys.mpr (mem_of_lookup_eq_some hp)) p hp, h.2.2⟩,
      fun h => ⟨h.new, fun r _ p hp => h.below r p hp, h.unlinked⟩⟩

instance (db : Database) : DecidablePred (Distinct db)
  | .add root _ _ _ _ => inferInstanceAs (Decidable (root ≠ 0 ∧ Fresh db root))
  | .cap _ _ _ _ _ | .settle => isTrue trivial

theorem eq_ok_of_toOption {ε α : Type} {x : Except ε α} {a : α}
    (h : x.toOption = some a) : x = .ok a := by
  cases x with
  | error e => cases h
  | ok b =>
    cases h
    rfl

/-! Small trees.  All start from an empty store and a disk layer with id 0. -/

def emptyDisk (root : Hash) : DiskLayer := ⟨root, 0, Buffer.new, none, false⟩

def emptyMemory (root : Hash) : Memory :=
  ⟨[.disk (emptyDisk root)], ⟨∅, ∅, ∅, 0, 0, ∅⟩, ⟨[], 0⟩⟩

theorem start_empty (root : Hash) : Start (emptyMemory root) (emptyDisk root) := by
  refine ⟨rfl, rfl, ?_, rfl⟩
  intro f hf
  cases hf

/-- A layer that writes the account `x`. -/
def addAccount (root parentRoot x : Hash) (data : Bytes) : Op :=
  .add root parentRoot 0 ⟨NodeSet.empty, ∅⟩ ⟨⟨singleton x (some data), ∅, false⟩, ∅, ∅⟩

def capTo (root : Hash) (layers : Nat) : Op :=
  .cap ⟨0, true, fun _ => false⟩ (RangeOrder.ascending 256) (fun _ => false) root layers

/-- A fork above the layer that is flattened. -/
def forkRun : List Op :=
  [addAccount 2 1 11 [2], addAccount 3 2 12 [3], addAccount 4 2 13 [4], capTo 4 1]

/-- The fork is extended, and then the root that was flattened away comes back. -/
def reviveRun : List Op := forkRun ++ [addAccount 5 3 14 [5], addAccount 1 4 15 [7]]

theorem Built.of_empty (C₀ : Hash → Prop) [∀ db, DecidablePred (C db)] {root : Hash} {ops : List Op}
    {P : Database → Bool} (hroot : C₀ root)
    (hrun : (Op.runAll C ops (Database.newLayerTree (emptyMemory root) 0 (emptyDisk root))).any P =
      true) :
    ∃ db, Built C₀ C db (ops.foldl states fun _ => (emptyDisk root).view (emptyMemory root).kv) ∧
      P db = true := by
  obtain ⟨db, hdb, hP⟩ := (any_eq_true _ _).mp hrun
  exact ⟨db, (start (start_empty root) hroot).runAll hdb, hP⟩

/-- In the tree with a fork above the flattened layer, the account of that layer is found
    from the side of the fork that was not linked. -/
theorem lookup_reads_state_forkRun : ∃ db σ, Built (· ≠ 0) Op.Distinct db σ ∧
    (3 : Hash) ∈ db.layers ∧
    ∃ p b, db.lookupAccount 11 3 = .ok p ∧ db.account p 11 = .ok b ∧ bytesOf b =
      (σ 3).flat.account 11 := by
  have hroot : (1 : Hash) ≠ 0 := by decide
  have hrun : ((runAll Distinct forkRun (newLayerTree (emptyMemory 1) 0 (emptyDisk 1))).any
      fun db => decide ((3 : Hash) ∈ db.layers)) = true := by decide +kernel
  obtain ⟨db, hbuilt, hmem⟩ := Built.of_empty (· ≠ 0) hroot hrun
  have hmem := of_decide_eq_true hmem
  exact ⟨db, _, hbuilt, hmem, ((lookup_reads_state hbuilt 3).1 hmem).1 11⟩

/-- **Where the index goes wrong.**  Over a disk layer with the zero hash as its root nothing is
    found that is not in a diff layer; and a root that comes back is taken for the ancestor of
    layers that were added above its first layer. -/
theorem lookup_misreads :
    (∃ db σ, Built (fun _ => True) Op.New db σ ∧ (2 : Hash) ∈ db.layers ∧
      db.lookupAccount 12 2 = .error (.staleState 2)) ∧
    ∃ db σ, Built (fun _ => True) Op.New db σ ∧ (5 : Hash) ∈ db.layers ∧
      ∃ p b, db.lookupAccount 15 5 = .ok p ∧ db.account p 15 = .ok b ∧
        bytesOf b ≠ (σ 5).flat.account 15 := by
  constructor
  · have hrun : ((runAll New [addAccount 2 0 11 [2]]
        (newLayerTree (emptyMemory 0) 0 (emptyDisk 0))).any fun db =>
        decide ((2 : Hash) ∈ db.layers) && decide (db.lookup.accountTip db.isDescendant 12 2
          (rootAt db.heap db.base) = 0)) = true := by decide +kernel
    obtain ⟨db, hbuilt, hP⟩ := Built.of_empty (fun _ => True) trivial hrun
    rw [Bool.and_eq_true, decide_eq_true_eq, decide_eq_true_eq] at hP
    refine ⟨db, _, hbuilt, hP.1, ?_⟩
    unfold lookupAccount
    rw [hP.2]
    rfl
  · have hrun : ((runAll New reviveRun (newLayerTree (emptyMemory 1) 0 (emptyDisk 1))).any
        fun db => decide ((5 : Hash) ∈ db.layers) && decide (db.lookupAccount 15 5 = .ok 6) &&
          decide (db.account 6 15 = .ok (some [7]))) = true := by decide +kernel
    obtain ⟨db, hbuilt, hP⟩ := of_empty (fun _ => True) trivial hrun
    rw [Bool.and_eq_true, Bool.and_eq_true, decide_eq_true_eq, decide_eq_true_eq, decide_eq_true_eq]
      at hP
    obtain ⟨⟨hmem, htip⟩, hread⟩ := hP
    refine ⟨db, _, hbuilt, hmem, 6, some [7], htip, hread, ?_⟩
    decide +kernel

/-- **The ancestry index.**  In every tree that is built, forks included, a root is listed as a
    descendant of a root in the tree exactly if the roots of the parents lead there. -/
theorem isDescendant_exact {db : Database} {σ : Hash → View} (h : Built (· ≠ 0) Op.Distinct db σ)
    {a : Hash} (ha : a ∈ db.layers) (r : Hash) :
    db.isDescendant r a = true ↔ r ∈ db.layers ∧ Anc db.up r a := by
  obtain ⟨⟨disk, hinv⟩, -⟩ := h.tree
  exact decide_eq_true_iff.trans (hinv.desc a r ha)

/-- After the flattening the two branches both lead to its layer, and not to each other. -/
theorem isDescendant_exact_forkRun : ∃ db σ, Built (· ≠ 0) Op.Distinct db σ ∧
    Anc db.up 3 2 ∧ Anc db.up 4 2 ∧ ¬Anc db.up 3 4 := by
  have hroot : (1 : Hash) ≠ 0 := by decide
  have hrun : ((runAll Distinct forkRun (newLayerTree (emptyMemory 1) 0 (emptyDisk 1))).any
      fun db => decide (((2 : Hash) ∈ db.layers ∧ (3 : Hash) ∈ db.layers ∧ (4 : Hash) ∈ db.layers) ∧
        db.isDescendant 3 2 = true ∧ db.isDescendant 4 2 = true ∧ db.isDescendant 3 4 = false)) =
      true := by decide +kernel
  obtain ⟨db, hbuilt, hdb⟩ := Built.of_empty (· ≠ 0) hroot hrun
  obtain ⟨⟨hmem₂, hmem₃, hmem₄⟩, h₃, h₄, hnot⟩ := of_decide_eq_true hdb
  refine ⟨db, _, hbuilt, ((isDescendant_exact hbuilt hmem₂ 3).mp h₃).2,
    ((isDescendant_exact hbuilt hmem₂ 4).mp h₄).2, fun hanc => ?_⟩
  rw [(isDescendant_exact hbuilt hmem₄ 3).mpr ⟨hmem₃, hanc⟩] at hnot
  cases hnot

/-! ### Reads of the layers that stay -/

/-- The parents of the layer at `p` lead down to `base`. -/
inductive Leads (heap : List Layer) (base : Ptr) : Ptr → Prop
  | base : Leads heap base base
  | diff {p : Ptr} {dl : DiffLayer} (hp : heap[p]? = some (.diff dl))
      (h : Leads heap base dl.parent) :
      Leads heap base p

variable {base p : Ptr} {heap : List Layer}

theorem Over.leads {v₀ v : View} (h : Over heap base v₀ p v) : Leads heap base p := by
  induction h with
  | base => exact Leads.base
  | diff hp _ ih => exact Leads.diff hp ih

theorem Leads.of_diff {dl : DiffLayer} (hbase : heap[base]? = some (.disk disk))
    (hp : heap[p]? = some (.diff dl)) (h : Leads heap base p) : Leads heap base dl.parent := by
  cases h with
  | base =>
    rw [hbase] at hp
    cases hp
  | diff hp' h' =>
    rw [hp] at hp'
    cases hp'
    exact h'

theorem Leads.eq_of_disk {d : DiskLayer} (hp : heap[p]? = some (.disk d)) (h : Leads heap base p) :
    p = base := by
  cases h with
  | base => rfl
  | diff hp' _ =>
    rw [hp] at hp'
    cases hp'

/-- A layer over the disk layer in use reads its state. -/
theorem Over.node {v : View} (hm : MemInv m base disk) (h : Over m.heap base (disk.view m.kv) p v)
    (owner : Hash) (path : Bytes) :
    ∃ b, m.node p owner path = .ok b ∧ bytesOf b = v.nodes owner path := by
  unfold Memory.node
  induction h with
  | base =>
    rw [walk_disk hm.at_base]
    exact disk.node_eq m.kv owner path hm.alive
  | @diff p dl v hp _ ih =>
    rw [walk_diff hm.chained hp]
    simp only [View.apply, View.override, overrideNodes]
    cases hown : dl.nodes.node owner path with
    | none => exact ih
    | some n => exact ⟨n.blob, rfl, rfl⟩

/-- What holds if `cap` leaves the layers that stay as they were: they read the same nodes, and
    their parents lead to the disk layer. -/
structure KeepsNodes (db db' : Database) : Prop where
  read : ∀ r ∈ db'.layers, ∀ owner path, ∃ p b p' b', db.layers.lookup r = some p ∧
    db.node p owner path = .ok b ∧ db'.layers.lookup r = some p' ∧ db'.node p' owner path = .ok b' ∧
    bytesOf b' = bytesOf b
  chain : ∀ r p', db'.layers.lookup r = some p' → Leads db'.heap db'.base p'

/-- The layer that `cap root n` walks to is the only child of the layer that it flattens. -/
def OnlyChild (db : Database) (root : Hash) (n : Nat) : Prop :=
  ∀ (q p : Ptr) (diff par : DiffLayer), db.layers.lookup root = some q →
    descend db.heap (n - 1) q = some p → db.heap[p]? = some (.diff diff) →
    db.heap[diff.parent]? = some (.diff par) →
    ∀ r dl, db.diffAt r = some dl → rootAt db.heap dl.parent = par.root → r = diff.root

/-- A new root is added, or a flattening is of a layer with one child. -/
def Op.Unforked (db : Database) : Op → Prop
  | add root _ _ _ _ => root ∉ db.layers
  | cap _ _ _ root n => n = 0 ∨ OnlyChild db root n
  | settle => True

def Op.isAdd : Op → Bool
  | add _ _ _ _ _ => true
  | cap _ _ _ _ _ => false
  | settle => false

theorem Op.unforked_of_isAdd (db : Database) (op : Op) (h : op.New db ∧ op.isAdd = true) :
    op.Unforked db := by
  cases op with
  | add root parentRoot block nodes states => exact h.1
  | cap cfg ord early root n => cases h.2
  | settle => trivial

/-- A tree in which every layer is linked to a layer of the tree, and only roots of the tree
    have descendants. -/
structure LinkedTree (db : Database) (disk : DiskLayer)
    (σ : Hash → View) : Prop extends TreeInv db disk σ where
  linked : ∀ r dl, db.diffAt r = some dl → db.layers.lookup (rootAt db.heap dl.parent) =
    some dl.parent
  only : ∀ a, a ∉ db.layers → GoMap.get db.descendants a = ∅

namespace LinkedTree

variable {db db' : Database} {disk : DiskLayer} {σ : Hash → View} {r root : Hash}

variable (h : LinkedTree db disk σ)
include h

/-- What is below a layer of the tree is in the tree. -/
theorem ancestors_mem {a : Hash} (hp : db.layers.lookup r = some p) (ha : a ∈ ancestors db.heap p) :
    a ∈ db.layers := by
  generalize hn : db.idAt r = n
  induction n using Nat.strong_induction_on generalizing r p with
  | _ n ih =>
    subst hn
    obtain ⟨l, hl, -⟩ := h.root_eq r p hp
    cases l with
    | disk d =>
      rw [ancestors_disk hl] at ha
      exact absurd ha List.not_mem_nil
    | diff dl =>
      have hdl : db.diffAt r = some dl := diffAt_eq_some.mpr ⟨p, hp, hl⟩
      have hup : db.up r = some (rootAt db.heap dl.parent) := up_eq_some.mpr ⟨dl, hdl, rfl⟩
      rw [ancestors_diff h.mem.chained hl, List.mem_cons] at ha
      rcases ha with rfl | ha
      · exact (h.up_mem hup).1
      · exact ih _ (h.up_lt _ _ hup) (h.linked r dl hdl) ha rfl

theorem fresh (hnew : root ∉ db.layers) : Fresh db root :=
  ⟨hnew, fun _ _ hp hin => hnew (h.ancestors_mem hp hin), h.only root hnew⟩

/-- Every layer of the tree stands over the disk layer, with its state. -/
theorem over_base (hp : db.layers.lookup r = some p) :
    Over db.heap db.base (disk.view db.kv) p (σ r) := by
  generalize hn : db.idAt r = n
  induction n using Nat.strong_induction_on generalizing r p with
  | _ n ih =>
    subst hn
    obtain ⟨l, hl, hroot⟩ := h.root_eq r p hp
    cases l with
    | disk d =>
      have hbase := h.disk_eq r p d hp hl
      subst hbase
      rw [h.mem.at_base] at hl
      cases hl
      rw [← hroot, show (Layer.disk disk).rootHash = disk.root from rfl, h.view_base]
      exact Over.base
    | diff dl =>
      have hdl : db.diffAt r = some dl := diffAt_eq_some.mpr ⟨p, hp, hl⟩
      have hup : db.up r = some (rootAt db.heap dl.parent) := up_eq_some.mpr ⟨dl, hdl, rfl⟩
      rw [h.view r dl hdl]
      exact Over.diff hl (ih _ (h.up_lt _ _ hup) (h.linked r dl hdl) rfl)

theorem node (hp : db.layers.lookup r = some p) (owner : Hash) (path : Bytes) :
    ∃ b, db.node p owner path = .ok b ∧ bytesOf b = (σ r).nodes owner path :=
  (h.over_base hp).node h.mem owner path

omit h

theorem newLayerTree (hmem : MemInv m base disk) (hview : σ disk.root = disk.view m.kv) :
    LinkedTree (newLayerTree m base disk) disk σ := by
  refine ⟨TreeInv.newLayerTree hmem hview, ?_, fun a _ => GoMap.get_empty a⟩
  intro r dl hdl
  obtain ⟨p, hp, hheap⟩ := diffAt_eq_some.mp hdl
  rw [show (Database.newLayerTree m base disk).layers.lookup r = _ from
    GoMap.lookup_singleton_ite _ _ _] at hp
  split at hp
  · cases hp
    rw [show (Database.newLayerTree m base disk).heap[base]? = _ from hmem.at_base] at hheap
    cases hheap
  · cases hp

theorem add (h : LinkedTree db disk σ) {parentRoot : Hash} {l : DiffLayer} (hnew : root ∉ db.layers)
    (a : Added db root parentRoot l db') :
    LinkedTree db' disk (Function.update σ root ((σ parentRoot).apply l)) := by
  refine ⟨h.toTreeInv.add (h.fresh hnew) a, ?_, ?_⟩
  · intro r dl hdl
    by_cases hr : r = root
    · rw [hr, a.diffAt_new] at hdl
      cases hdl
      exact linked_new h.toTreeInv a
    · rw [diffAt_old h.toTreeInv a hr] at hdl
      exact linked_old h.toTreeInv a hnew hdl (h.linked r dl hdl)
  · intro b hb
    rw [a.mem_iff, not_or] at hb
    rw [Finset.eq_empty_iff_forall_notMem]
    intro x hx
    rcases (mem_descendants h.toTreeInv a).mp hx with hx | ⟨-, rfl | hx⟩
    · rw [h.only b hb.2] at hx
      exact Finset.notMem_empty x hx
    · exact hb.2 (mem_of_lookup_eq_some a.lookup_parent)
    · exact hb.2 (h.ancestors_mem a.lookup_parent hx)

theorem settle (h : LinkedTree db disk σ) {disk' : DiskLayer} (e : Settled db disk disk' db') :
    LinkedTree db' disk' σ := by
  refine ⟨inv h.toTreeInv e, ?_, ?_⟩
  · intro r dl hdl
    rw [diffAt_eq h.toTreeInv e] at hdl
    rw [rootAt_parent h.toTreeInv e hdl, e.layers_eq]
    exact h.linked r dl hdl
  · intro a ha
    rw [e.layers_eq] at ha
    rw [show db'.descendants = db.descendants by rw [e.eq]]
    exact h.only a ha

/-- Flattening a layer with one child. -/
theorem capped (h : LinkedTree db disk σ) {newBase : Ptr} {diff par : DiffLayer} {ndl : DiskLayer}
    (s : FlattenStep db disk σ p diff par m newBase ndl) (c : Capped db p par m newBase db')
    (honly : ∀ r dl, db.diffAt r = some dl → rootAt db.heap dl.parent = par.root → r = diff.root) :
    LinkedTree db' ndl σ := by
  refine ⟨inv h.toTreeInv s c, ?_, ?_⟩
  · intro r dl' hdl'
    refine linked_kept h.toTreeInv s c hdl' fun hroot => ?_
    obtain ⟨-, dl, q, hdl, rfl, hsame⟩ := before h.toTreeInv s c hdl'
    exact honly r dl hdl (hsame.symm.trans hroot)
  · intro a ha
    rw [c.descendants a]
    split
    · rfl
    · rename_i hnot
      refine h.only a fun hin => hnot ⟨hin, fun hvia => ha ((c.mem_iff a).mpr hvia)⟩

end LinkedTree

/-- The parents of a sibling do not lead to the new disk layer. -/
theorem Capped.not_leads {db' : Database} {newBase : Ptr} {diff par : DiffLayer} {ndl : DiskLayer}
    (h : TreeInv db disk σ) (s : FlattenStep db disk σ p diff par m newBase ndl)
    (c : Capped db p par m newBase db') {r : Hash} {dl : DiffLayer} (hdl : db.diffAt r = some dl)
    (hparent : rootAt db.heap dl.parent = par.root) (hr : r ≠ diff.root) :
    ¬∀ r p', db'.layers.lookup r = some p' → Leads db'.heap db'.base p' := by
  intro hchain
  obtain ⟨hdl', hsame⟩ := sibling_kept h s c hdl hparent hr
  obtain ⟨x, hx, hheap⟩ := diffAt_eq_some.mp hdl'
  have hbase := (inv_memory h s c).at_base
  have hleads := (hchain r x hx).of_diff hbase hheap
  -- down to the old object, and from there to a disk layer
  rw [hsame] at hleads
  obtain ⟨q, d, hq, hd⟩ := at_par h s c
  have hleads : Leads db'.heap db'.base q := hleads.of_diff hbase hq
  have hqb : q = db'.base := hleads.eq_of_disk hd
  subst hqb
  -- but the new disk layer has the id of the flattened layer
  obtain ⟨l, hl, hid⟩ := (inv_memory h s c).chained _ _ hq
  rw [hbase] at hl
  cases hl
  have hid : par.id = ndl.id + 1 := hid
  have := s.id
  omega

theorem Built.linkedTree (h : Built (fun _ => True) Unforked db σ) :
    ∃ disk, LinkedTree db disk σ := by
  induction h with
  | @start m disk hstart _ => exact ⟨disk, LinkedTree.newLayerTree hstart.inv rfl⟩
  | @step db db' σ op _ hop hrun ih =>
    obtain ⟨disk, htree⟩ := ih
    cases op with
    | add root parentRoot block nodes states =>
      obtain ⟨id, q, a⟩ := add_spec hrun
      exact ⟨disk, htree.add hop a⟩
    | settle =>
      cases hrun
      obtain ⟨disk', e⟩ := htree.settled
      exact ⟨disk', htree.settle e⟩
    | cap cfg ord early root n =>
      by_cases hn : n = 0
      · subst hn
        obtain ⟨disk', hmem, hview, hdb', -⟩ := htree.cap_zero hrun
        rw [hdb']
        exact ⟨disk', LinkedTree.newLayerTree hmem hview⟩
      · obtain ⟨q, hq, ⟨-, rfl⟩ | ⟨p, hdesc, hflat⟩⟩ := cap_spec hn hrun
        · exact ⟨disk, htree⟩
        · obtain ⟨diff, hp, ⟨rfl, -⟩ | ⟨par, m, newBase, ndl, s, c⟩⟩ :=
            htree.flatten_spec hq hdesc hflat
          · exact ⟨disk, htree⟩
          · exact ⟨ndl, htree.capped s c (hop.resolve_left hn q p diff par hq hdesc hp s.at_par)⟩

/-- **`cap` leaves the layers that stay as they were exactly if the layer it walks to has no
    sibling.**  This is for trees in which that was so for every flattening before. -/
theorem cap_keeps_nodes_iff {db db' : Database} {σ : Hash → View}
    (h : Built (fun _ => True) Op.Unforked db σ) {cfg : Config} {ord : RangeOrder Hash}
      {early : Nat → Bool}
    {root : Hash} {n : Nat} (hn : 1 ≤ n) (hcap : db.cap cfg ord early root n = .ok db') :
    KeepsNodes db db' ↔ OnlyChild db root n := by
  have hn0 : n ≠ 0 := Nat.one_le_iff_ne_zero.mp hn
  obtain ⟨disk, htree⟩ := h.linkedTree
  constructor
  · intro hkeep q p diff par hq hdesc hp hpar r dl hdl hroot
    by_contra hr
    obtain ⟨q', hq', ⟨hnone, -⟩ | ⟨p', hdesc', hflat⟩⟩ := cap_spec hn0 hcap
    · rw [hq] at hq'
      cases hq'
      rw [hdesc] at hnone
      cases hnone
    rw [hq] at hq'
    cases hq'
    rw [hdesc] at hdesc'
    cases hdesc'
    obtain ⟨diff', hp', ⟨-, d, hd⟩ | ⟨par', m, newBase, ndl, s, c⟩⟩ :=
      htree.flatten_spec hq hdesc hflat
    · rw [hp] at hp'
      cases hp'
      rw [hpar] at hd
      cases hd
    · rw [hp] at hp'
      cases hp'
      have hpar' := s.at_par
      rw [hpar] at hpar'
      cases hpar'
      exact not_leads htree.toTreeInv s c hdl hroot hr hkeep.chain
  · intro honly
    have hbuilt : Built (fun _ => True) Unforked db' σ :=
      @step _ _ db db' σ (.cap cfg ord early root n) h (Or.inr honly) hcap
    obtain ⟨disk', htree'⟩ := hbuilt.linkedTree
    obtain ⟨-, -, hsub⟩ := htree.cap hcap
    constructor
    · intro r hr owner path
      obtain ⟨p, hp⟩ := mem_iff.mp (hsub r hr)
      obtain ⟨p', hp'⟩ := mem_iff.mp hr
      obtain ⟨b, hb, hbytes⟩ := htree.node hp owner path
      obtain ⟨b', hb', hbytes'⟩ := htree'.node hp' owner path
      exact ⟨p, b, p', b', hp, hb, hp', hb', hbytes'.trans hbytes.symm⟩
    · exact fun r p' hp' => (htree'.over_base hp').leads

/-- A chain of two layers is flattened to one. -/
theorem cap_keeps_nodes_iff_chain : ∃ db σ db', Built (fun _ => True) Op.Unforked db σ ∧
    db.cap ⟨0, true, fun _ => false⟩ (RangeOrder.ascending 256) (fun _ => false) 3 1 = .ok db' ∧
    (KeepsNodes db db' ↔ OnlyChild db 3 1) := by
  have hrun : ((runAll (fun db op => op.New db ∧ op.isAdd = true)
      [addAccount 2 1 11 [2], addAccount 3 2 12 [3]]
      (newLayerTree (emptyMemory 1) 0 (emptyDisk 1))).any fun db =>
      ((capTo 3 1).run db).toOption.isSome) = true := by decide +kernel
  obtain ⟨db, hbuilt, hcap⟩ := of_empty (fun _ => True) trivial hrun
  have hbuilt := hbuilt.mono unforked_of_isAdd
  obtain ⟨db', hdb'⟩ := isSome_iff_exists.mp hcap
  have hcap := eq_ok_of_toOption hdb'
  exact ⟨db, _, db', hbuilt, hcap, cap_keeps_nodes_iff hbuilt (Nat.le_refl 1) hcap⟩

/-- **Where `cap` breaks a layer that stays.**  Of two layers above the flattened one, the one
    that `cap` did not walk to read a node before and does not after. -/
theorem cap_breaks_sibling : ∃ db σ db', Built (fun _ => True) Op.New db σ ∧
    db.cap ⟨0, true, fun _ => false⟩ (RangeOrder.ascending 256) (fun _ => false) 4 1 = .ok db' ∧
    (3 : Hash) ∈ db'.layers ∧ ∃ p b p', db.layers.lookup 3 = some p ∧ db.node p 0 [1] = .ok b ∧
      db'.layers.lookup 3 = some p' ∧ db'.node p' 0 [1] = .error .snapshotStale := by
  have hrun : ((runAll New [addAccount 2 1 11 [2], addAccount 3 2 12 [3], addAccount 4 2 13 [4]]
      (newLayerTree (emptyMemory 1) 0 (emptyDisk 1))).any fun db =>
      decide (db.layers.lookup 3 = some 2) && decide (db.node 2 0 [1] = .ok none) &&
      ((capTo 4 1).run db).toOption.any fun db' =>
        decide (db'.layers.lookup 3 = some 2) && decide (db'.node 2 0 [1] =
          .error .snapshotStale)) = true := by decide +kernel
  obtain ⟨db, hbuilt, hP⟩ := of_empty (fun _ => True) trivial hrun
  rw [Bool.and_eq_true, Bool.and_eq_true, decide_eq_true_eq, decide_eq_true_eq] at hP
  obtain ⟨⟨hlook, hread⟩, hcap⟩ := hP
  obtain ⟨db', hdb', hP'⟩ := (any_eq_true _ _).mp hcap
  rw [Bool.and_eq_true, decide_eq_true_eq, decide_eq_true_eq] at hP'
  exact ⟨db, _, db', hbuilt, eq_ok_of_toOption hdb', mem_of_lookup_eq_some hP'.1, 2, none, 2, hlook,
    hread, hP'.1, hP'.2⟩

end GethArb.Pathdb
