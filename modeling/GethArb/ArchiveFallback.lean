/-
  **The clients for blocks whose state is gone** (`arbitrum/archivefallbackclients.go`).

  Each archive has the blocks up to its last one.  The clients are sorted by last block, and
  `fallbackClient` takes the first one that has the block.  Zero stands for "none chosen yet"
  in its loop, so an archive of the genesis block alone is passed over: block 0 goes to the
  next archive, or to none.
-/
import GethArb.Types

namespace GethArb.Arbitrum

open List

structure BlockRedirectConfig where
  url : String
  timeout : Int
  lastBlock : Nat

structure LastBlockAndClient (C : Type) where
  lastBlock : Nat
  client : C

variable {C E : Type} (create : BlockRedirectConfig → Except E (Option C))

/-- The clients, in the order of their configurations.  `create` is `CreateFallbackClient`,
    which gives nil for an empty URL. -/
def createClients : List BlockRedirectConfig → Except E (List (LastBlockAndClient C))
  | [] => .ok []
  | config :: configs => do
    let client ← create config
    let clients ← createClients configs
    .ok (client.toList.map (⟨config.lastBlock, ·⟩) ++ clients)

structure ArchiveFallbackClientsManager (C : Type) where
  lastBlockAndClients : List (LastBlockAndClient C)

/-- `newArchiveFallbackClientsManager`; `none` is the nil manager. -/
def newArchiveFallbackClientsManager (archiveRedirects : List BlockRedirectConfig) :
    Except E (Option (ArchiveFallbackClientsManager C)) := do
  let clients ← createClients create archiveRedirects
  if clients.length = 0 then .ok none
  else .ok (some ⟨clients.insertionSort fun a b => a.lastBlock ≤ b.lastBlock⟩)

/-- The loop of `fallbackClient`. -/
def possibleClients (blockNum : Nat) : Nat → List (LastBlockAndClient C) → List C
  | _, [] => []
  | chosenLastBlock, e :: es =>
    let chosenLastBlock :=
      if chosenLastBlock = 0 ∧ blockNum ≤ e.lastBlock then e.lastBlock else chosenLastBlock
    if chosenLastBlock ≠ 0 then
      if e.lastBlock = chosenLastBlock then e.client :: possibleClients blockNum chosenLastBlock es
      else []
    else possibleClients blockNum chosenLastBlock es

/-- `fallbackClient`; `intn n` is `rand.Intn` of `n + 1`. -/
def ArchiveFallbackClientsManager.fallbackClient (a : ArchiveFallbackClientsManager C)
    (intn : (n : Nat) → Fin (n + 1)) (blockNum : Nat) : Option C :=
  match possibleClients blockNum 0 a.lastBlockAndClients with
  | [] => none
  | c :: cs => some ((c :: cs).get (intn cs.length))

/-- The archive of the client `c` has the blocks up to `last`. -/
def Configured (configs : List BlockRedirectConfig) (last : Nat) (c : C) : Prop :=
  ∃ config ∈ configs, config.lastBlock = last ∧ create config = .ok (some c)

variable {create} {configs : List BlockRedirectConfig} {clients es : List (LastBlockAndClient C)}
variable {blockNum : Nat}

theorem createClients_eq (h : createClients create configs = .ok clients) :
    clients = configs.filterMap fun config =>
      (create config).toOption.join.map (⟨config.lastBlock, ·⟩) := by
  induction configs generalizing clients with
  | nil =>
    cases h
    rfl
  | cons config configs ih =>
    obtain ⟨client, hclient, h⟩ := bind_eq_ok.mp h
    obtain ⟨rest, hrest, h⟩ := bind_eq_ok.mp h
    cases h
    rw [filterMap_cons, hclient, ih hrest]
    cases client with
    | none => rfl
    | some c => rfl

/-- The loop takes the first client that has the block and whose last block is not zero. -/
theorem possibleClients_eq (hs : es.Pairwise fun a b => a.lastBlock < b.lastBlock) :
    possibleClients blockNum 0 es =
      ((es.find? fun e => e.lastBlock ≠ 0 ∧ blockNum ≤ e.lastBlock).map (·.client)).toList := by
  induction es with
  | nil => rfl
  | cons e es ih =>
    obtain ⟨hfirst, hs⟩ := pairwise_cons.mp hs
    by_cases htaken : e.lastBlock ≠ 0 ∧ blockNum ≤ e.lastBlock
    · -- the clients that follow have later last blocks
      have hstop : possibleClients blockNum e.lastBlock es = [] := by
        cases es with
        | nil => rfl
        | cons e' es => simp [possibleClients, htaken.1, (hfirst e' mem_cons_self).ne']
      simp [possibleClients, htaken, hstop]
    · have hzero : ¬(blockNum ≤ e.lastBlock ∧ e.lastBlock ≠ 0) := fun h => htaken ⟨h.2, h.1⟩
      rw [find?_cons_of_neg (by simpa using htaken), ← ih hs]
      by_cases hle : blockNum ≤ e.lastBlock
      · simp [possibleClients, not_not.mp fun hne => hzero ⟨hle, hne⟩]
      · simp [possibleClients, hle]

variable {manager : ArchiveFallbackClientsManager C}

variable (blockNum) in
/-- The choice among the archives in the order of their last blocks. -/
theorem fallbackClient_find
    (hnew : newArchiveFallbackClientsManager create configs = .ok (some manager))
    (hdistinct : (configs.map (·.lastBlock)).Nodup) (intn : (n : Nat) → Fin (n + 1)) :
    ∃ es : List (LastBlockAndClient C),
      (∀ last c, Configured create configs last c ↔ ⟨last, c⟩ ∈ es) ∧
      es.Pairwise (fun a b => a.lastBlock < b.lastBlock) ∧
      manager.fallbackClient intn blockNum =
        (es.find? fun e => e.lastBlock ≠ 0 ∧ blockNum ≤ e.lastBlock).map (·.client) := by
  obtain ⟨clients, hclients, hnew⟩ := bind_eq_ok.mp hnew
  split at hnew
  · cases hnew
  cases hnew
  obtain rfl := createClients_eq hclients
  set clients := configs.filterMap fun config =>
    (create config).toOption.join.map (LastBlockAndClient.mk config.lastBlock) with hclients
  set le : LastBlockAndClient C → LastBlockAndClient C → Prop :=
    fun a b => a.lastBlock ≤ b.lastBlock
  have htotal : Std.Total le := ⟨fun a b => le_total a.lastBlock b.lastBlock⟩
  have htrans : IsTrans _ le := ⟨fun a b c => le_trans⟩
  have hperm := perm_insertionSort le clients
  have hsorted : (clients.insertionSort le).Pairwise fun a b => a.lastBlock < b.lastBlock := by
    have hnodup : clients.Pairwise fun a b => a.lastBlock ≠ b.lastBlock := by
      refine (pairwise_map.mp hdistinct).filterMap _ ?_
      simp +contextual
    have hne := (hperm.pairwise_iff fun h => Ne.symm h).mpr hnodup
    refine ((pairwise_insertionSort le clients).and hne).imp ?_
    rintro a b ⟨hle, hne⟩
    exact lt_of_le_of_ne hle hne
  refine ⟨clients.insertionSort le, fun last c => ?_, hsorted, ?_⟩
  · rw [hperm.mem_iff, mem_filterMap]
    refine exists_congr fun config => and_congr_right fun _ => ?_
    rcases create config with err | _ | client <;> simp [Except.toOption]
  · unfold ArchiveFallbackClientsManager.fallbackClient
    rw [possibleClients_eq hsorted]
    cases (clients.insertionSort le).find? _ with
    | none => rfl
    | some e => simp

variable (create configs blockNum) in
/-- What should be chosen: a client exactly if some archive has the block, and then that of the
    archive with the smallest last block not below it. -/
structure Smallest (chosen : Option C) : Prop where
  exists_iff : (∃ c, chosen = some c) ↔ ∃ last c, Configured create configs last c ∧ blockNum ≤ last
  smallest : ∀ c, chosen = some c → ∃ last, Configured create configs last c ∧ blockNum ≤ last ∧
    ∀ last' c', Configured create configs last' c' → blockNum ≤ last' → last ≤ last'

/-- **The choice of an archive.**  It is right unless block 0 is asked for and some archive ends
    there.  Then it is wrong, if every archive has a client of its own. -/
theorem fallbackClient_spec
    (hnew : newArchiveFallbackClientsManager create configs = .ok (some manager))
    (hdistinct : (configs.map (·.lastBlock)).Nodup) (intn : (n : Nat) → Fin (n + 1)) :
    ((blockNum ≠ 0 ∨ ∀ c, ¬Configured create configs 0 c) →
      Smallest create configs blockNum (manager.fallbackClient intn blockNum)) ∧
    ((∀ last last' c, Configured create configs last c → Configured create configs last' c →
        last = last') →
      Smallest create configs blockNum (manager.fallbackClient intn blockNum) →
        blockNum ≠ 0 ∨ ∀ c, ¬Configured create configs 0 c) := by
  obtain ⟨es, hmem, hsorted, hchosen⟩ := fallbackClient_find blockNum hnew hdistinct intn
  rw [hchosen]
  constructor
  · intro hzero
    have hfits : ∀ {last c}, Configured create configs last c → blockNum ≤ last →
        last ≠ 0 ∧ blockNum ≤ last := by
      rintro last c hc hle
      refine ⟨?_, hle⟩
      rintro rfl
      rcases hzero with hne | hnone
      · exact hne (Nat.le_zero.mp hle)
      · exact hnone c hc
    cases hfind : es.find? _ with
    | none =>
      have hnone : ∀ last c, Configured create configs last c → ¬blockNum ≤ last := by
        intro last c hc hle
        have hno := find?_eq_none.mp hfind _ ((hmem last c).mp hc)
        exact hno (decide_eq_true (hfits hc hle))
      exact ⟨by simpa using hnone, nofun⟩
    | some e =>
      obtain ⟨hp, before, after, hsplit, hbefore⟩ := find?_eq_some_iff_append.mp hfind
      obtain ⟨-, hle⟩ := of_decide_eq_true hp
      have he : Configured create configs e.lastBlock e.client :=
        (hmem _ _).mpr (mem_of_find?_eq_some hfind)
      refine ⟨by simpa using ⟨_, ⟨_, he⟩, hle⟩, fun c hc => ⟨e.lastBlock, ?_, hle, ?_⟩⟩
      · cases hc
        exact he
      · intro last' c' hc' hle'
        have hmem' := (hmem last' c').mp hc'
        rw [hsplit, mem_append, mem_cons] at hmem'
        rcases hmem' with hmem' | rfl | hmem'
        · have hnot := hbefore _ hmem'
          simp [hfits hc' hle'] at hnot
        · exact le_rfl
        · rw [hsplit, pairwise_append, pairwise_cons] at hsorted
          exact (hsorted.2.1.1 _ hmem').le
  · intro hapart hright
    by_contra hwrong
    simp only [not_or, not_not, not_forall] at hwrong
    obtain ⟨rfl, c₀, hc₀⟩ := hwrong
    obtain ⟨c, hc⟩ := hright.exists_iff.mpr ⟨0, c₀, hc₀, le_rfl⟩
    obtain ⟨last, hlast, -, hleast⟩ := hright.smallest c hc
    obtain ⟨e, hfind, rfl⟩ := Option.map_eq_some_iff.mp hc
    -- the archive of the client that was chosen does not end at the genesis block
    have hne : e.lastBlock ≠ 0 := by simpa using find?_some hfind
    have he : Configured create configs e.lastBlock e.client :=
      (hmem _ _).mpr (mem_of_find?_eq_some hfind)
    have hsame := hapart _ _ _ he hlast
    have hle := hleast 0 c₀ hc₀ le_rfl
    omega

/-- The client of an archive is known by its URL. -/
def byURL (config : BlockRedirectConfig) : Except Unit (Option String) := .ok (some config.url)

/-- Two archives, the later one first. -/
def twoArchives (early : Nat) : List BlockRedirectConfig := [⟨"late", 0, 9⟩, ⟨"early", 0, early⟩]

/-- Each archive of the two has its block. -/
theorem fallbackClient_spec_early :
    (∃ last, Configured byURL (twoArchives 4) last "early" ∧ 4 ≤ last ∧
      ∀ last' c', Configured byURL (twoArchives 4) last' c' → 4 ≤ last' → last ≤ last') ∧
    ∃ last, Configured byURL (twoArchives 4) last "late" ∧ 5 ≤ last ∧
      ∀ last' c', Configured byURL (twoArchives 4) last' c' → 5 ≤ last' → last ≤ last' :=
  ⟨((fallbackClient_spec rfl (by decide) fun _ => 0).1 (.inl (by decide))).smallest "early" rfl,
    ((fallbackClient_spec rfl (by decide) fun _ => 0).1 (.inl (by decide))).smallest "late" rfl⟩

/-- The genesis block goes to the late archive, though the early one has it. -/
theorem fallbackClient_genesis :
    (newArchiveFallbackClientsManager byURL (twoArchives 0)).map
        (·.map (·.fallbackClient (fun _ => 0) 0)) = .ok (some (some "late")) ∧
      Configured byURL (twoArchives 0) 0 "early" := by
  refine ⟨by decide +kernel, ⟨"early", 0, 0⟩, ?_, rfl, rfl⟩
  simp [twoArchives]

end GethArb.Arbitrum
