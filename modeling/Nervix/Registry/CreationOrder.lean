import Nervix.Theory.GreedyOrder

/-!
# Creation order

The order a domain's Models can be created in, one statement at a time: each after every Model its
configuration names, and among those that could come next the first by rank and name.
-/

namespace Nervix.Registry

open Relation (TransGen)

inductive ModelKind where
  | schema | wireJsonSchema | wireCborSchema | wireAvroSchema | codec | signalingProtocol | client
  | vhost | endpoint | branch | udf | lookup | relay | ingestor | reingestor | generator | junction
  | deduplicator | correlator | reorderer | windowProcessor | inferencer | wasmProcessor | emitter
  | placement
  deriving DecidableEq

def creationRank : ModelKind → Nat
  | .schema => 0
  | .wireJsonSchema => 1
  | .wireCborSchema => 2
  | .wireAvroSchema => 3
  | .codec => 4
  | .signalingProtocol => 5
  | .client => 6
  | .vhost => 7
  | .endpoint => 8
  | .branch => 9
  | .udf => 10
  | .lookup => 11
  | .relay => 12
  | .ingestor => 13
  | .reingestor => 14
  | .generator => 15
  | .junction => 16
  | .deduplicator => 17
  | .correlator => 18
  | .reorderer => 19
  | .windowProcessor => 20
  | .inferencer => 21
  | .wasmProcessor => 22
  | .emitter => 23
  | .placement => 24

theorem creationRank_injective (h : creationRank a = creationRank b) : a = b := by
  cases a <;> cases b <;> first | rfl | nomatch h

inductive EdgeKind where
  | requiredBy | sendsTo | correlationTimeout | messageError | materializedState

def EdgeKind.isConfigurationDependency : EdgeKind → Bool
  | .requiredBy | .materializedState => true
  | .sendsTo | .correlationTimeout | .messageError => false

structure NodeRef (Name : Type*) where
  kind : ModelKind
  identifier : Name
  deriving DecidableEq

/-- Where a Model sits among those that do not depend on each other. -/
def NodeRef.place (r : NodeRef Name) : ℕ ×ₗ Name := toLex (creationRank r.kind, r.identifier)

theorem NodeRef.place_injective (r r' : NodeRef Name) (h : r.place = r'.place) : r = r' := by
  obtain ⟨hrank, hname⟩ := Prod.mk.inj (toLex.injective h)
  cases r
  cases r'
  obtain rfl := creationRank_injective hrank
  obtain rfl := hname
  rfl

structure Edge (nodeCount : Nat) where
  source : Fin nodeCount
  target : Fin nodeCount
  weight : EdgeKind

/-- The graph a domain's Models are built into. Edges may be parallel; the index map of the source
holds one index for each reference. -/
structure ActiveGraph (Name : Type*) where
  nodeCount : Nat
  nodeRefAt : Fin nodeCount → NodeRef Name
  edges : List (Edge nodeCount)
  nodeRefAt_injective : Function.Injective nodeRefAt

namespace ActiveGraph

variable {Name : Type*} [LinearOrder Name] (g : ActiveGraph Name)

/-- A Model ready to be created: its rank, its name and its index, compared in this order. -/
abbrev ReadyModel := (ℕ ×ₗ Name) ×ₗ Fin g.nodeCount

def readyModel (index : Fin g.nodeCount) : g.ReadyModel :=
  toLex ((g.nodeRefAt index).place, index)

structure Creation where
  waitingOn : Fin g.nodeCount → Nat
  ready : Finset g.ReadyModel
  order : List (NodeRef Name)

def start : g.Creation :=
  let waitingOn index := g.edges.countP fun e =>
    e.target = index && e.weight.isConfigurationDependency
  { waitingOn
    ready := (Finset.univ.filter (waitingOn · = 0)).image g.readyModel
    order := [] }

/-- One edge out of a created Model. Absent where the checked subtraction would fail. -/
def release (s : g.Creation) (e : Edge g.nodeCount) : Option g.Creation :=
  if s.waitingOn e.target = 0 then none
  else
    let remaining := s.waitingOn e.target - 1
    some { s with
      waitingOn := Function.update s.waitingOn e.target remaining
      ready := if remaining = 0 then insert (g.readyModel e.target) s.ready else s.ready }

def create (s : g.Creation) (next : g.ReadyModel) : Option g.Creation :=
  let index := (ofLex next).2
  (g.edges.filter fun e => e.source = index && e.weight.isConfigurationDependency).foldlM g.release
    { s with ready := s.ready.erase next, order := s.order ++ [g.nodeRefAt index] }

/-- The loop over the ready set. `popAll_spec` shows that as many rounds as nodes empty it. -/
def popAll : Nat → g.Creation → Option g.Creation
  | 0, s => some s
  | rounds + 1, s =>
    if h : s.ready.Nonempty then (g.create s (s.ready.min' h)).bind (popAll rounds) else some s

/-- Absent outside when an assured step fails, and inside when the dependencies form a cycle. -/
def creationOrder : Option (Option (List (NodeRef Name))) :=
  (g.popAll g.nodeCount g.start).map fun s =>
    if s.order.length ≠ g.nodeCount then none else some s.order

def models : Set (NodeRef Name) := Set.range g.nodeRefAt

/-- A configuration or materialized-state edge leads from `d` to `r`. -/
def Requires (d r : NodeRef Name) : Prop :=
  ∃ e ∈ g.edges, e.weight.isConfigurationDependency ∧
    g.nodeRefAt e.source = d ∧ g.nodeRefAt e.target = r

/-- The edges into the Models that stay open at the end of `order`. -/
def waits (order : List (NodeRef Name)) (index : Fin g.nodeCount) (e : Edge g.nodeCount) : Bool :=
  e.target = index && e.weight.isConfigurationDependency && g.nodeRefAt e.source ∉ order

structure Counts (s : g.Creation) : Prop where
  greedy : Greedy g.models g.Requires NodeRef.place s.order
  waiting : ∀ i, s.waitingOn i = g.edges.countP (g.waits s.order i)
  ready : ∀ m, m ∈ s.ready ↔
    ∃ i, g.readyModel i = m ∧ g.nodeRefAt i ∉ s.order ∧ s.waitingOn i = 0

variable {g}

theorem countP_waits_eq_zero {order : List (NodeRef Name)} :
    g.edges.countP (g.waits order i) = 0 ↔ ∀ d, g.Requires d (g.nodeRefAt i) → d ∈ order := by
  simp only [List.countP_eq_zero, waits, Bool.and_eq_true, decide_eq_true_eq, not_and, not_not]
  constructor
  · rintro h d ⟨e, he, hdep, rfl, htarget⟩
    exact h e he ⟨g.nodeRefAt_injective htarget, hdep⟩
  · rintro h e he ⟨rfl, hdep⟩
    exact h _ ⟨e, he, hdep, rfl, rfl⟩

theorem Counts.next_iff {s : g.Creation} (h : Counts g s) :
    Next g.models g.Requires s.order (g.nodeRefAt i) ↔
      g.nodeRefAt i ∉ s.order ∧ s.waitingOn i = 0 := by
  rw [h.waiting, countP_waits_eq_zero]
  exact ⟨fun h => h.2, fun h => ⟨⟨i, rfl⟩, h⟩⟩

theorem counts_start : Counts g g.start where
  greedy := Greedy.nil
  waiting i := List.countP_congr fun e _ => by simp [waits, start]
  ready m := by simp [start, and_comm]

theorem release_spec {s : g.Creation} (h : 0 < s.waitingOn e.target) :
    ∃ s', g.release s e = some s' ∧ s'.order = s.order ∧
      (∀ i, s'.waitingOn i = s.waitingOn i - if e.target = i then 1 else 0) ∧
      ∀ m, m ∈ s'.ready ↔ m ∈ s.ready ∨ g.readyModel e.target = m ∧ s.waitingOn e.target = 1 := by
  refine ⟨_, if_neg h.ne', rfl, fun i => ?_, fun m => ?_⟩
  · by_cases hi : e.target = i
    · simp [hi]
    · simp [hi, Function.update_of_ne (Ne.symm hi)]
  · dsimp only
    split
    · rw [Finset.mem_insert, or_comm, eq_comm, and_iff_left (by omega)]
    · exact (or_iff_left fun hm => by omega).symm

/-- The edges of `l` released one by one: each is subtracted once, and what they were the last to
hold back is ready. -/
theorem release_all (l : List (Edge g.nodeCount)) (s : g.Creation)
    (h : ∀ i, l.countP (·.target = i) ≤ s.waitingOn i) :
    ∃ s', l.foldlM g.release s = some s' ∧ s'.order = s.order ∧
      (∀ i, s'.waitingOn i = s.waitingOn i - l.countP (·.target = i)) ∧
      ∀ m, m ∈ s'.ready ↔ m ∈ s.ready ∨ ∃ i, g.readyModel i = m ∧
        0 < l.countP (·.target = i) ∧ s.waitingOn i = l.countP (·.target = i) := by
  induction l generalizing s with
  | nil => exact ⟨s, rfl, rfl, by simp, by simp⟩
  | cons e l ih =>
    simp only [List.countP_cons, decide_eq_true_eq] at h ⊢
    obtain ⟨s₁, hs₁, horder₁, hwaiting₁, hready₁⟩ := release_spec
      (Nat.lt_of_lt_of_le (by simp) (h e.target))
    obtain ⟨s', hs', horder', hwaiting', hready'⟩ := ih s₁ fun i => by
      rw [hwaiting₁]
      exact Nat.le_sub_of_add_le (h i)
    refine ⟨s', by rw [List.foldlM_cons, hs₁]; exact hs', horder'.trans horder₁, fun i => ?_,
      fun m => ?_⟩
    · rw [hwaiting', hwaiting₁, Nat.sub_sub, Nat.add_comm (ite ..)]
    · rw [hready', hready₁, or_assoc]
      refine or_congr_right ⟨?_, ?_⟩
      · rintro (⟨rfl, hone⟩ | ⟨i, rfl, hpos, heq⟩)
        · have := h e.target
          refine ⟨_, rfl, by simp, ?_⟩
          rw [if_pos rfl] at this ⊢
          omega
        · have := h i
          refine ⟨i, rfl, by omega, ?_⟩
          rw [hwaiting₁] at heq
          omega
      · rintro ⟨i, rfl, hpos, heq⟩
        by_cases hl : l.countP (·.target = i) = 0
        · rw [hl] at hpos heq
          split at hpos
          · rename_i hi
            subst hi
            exact .inl ⟨rfl, by simpa using heq⟩
          · simp at hpos
        · refine .inr ⟨i, rfl, by omega, ?_⟩
          rw [hwaiting₁]
          omega

/-- What is created next is the least that can come next, and every edge out of it is released. -/
theorem Counts.create {s : g.Creation} (h : Counts g s) (hnonempty : s.ready.Nonempty) :
    ∃ s', g.create s (s.ready.min' hnonempty) = some s' ∧ Counts g s' ∧
      s'.order.length = s.order.length + 1 := by
  obtain ⟨i, hmin, hnew, hzero⟩ := (h.ready _).mp (s.ready.min'_mem hnonempty)
  have hnext := h.next_iff.mpr ⟨hnew, hzero⟩
  have hleast : ∀ r, Next g.models g.Requires s.order r → (g.nodeRefAt i).place ≤ r.place := by
    rintro r hr
    obtain ⟨j, rfl⟩ := hr.1
    have hj := s.ready.min'_le _ ((h.ready _).mpr ⟨j, rfl, h.next_iff.mp hr⟩)
    rw [← hmin] at hj
    exact Prod.Lex.monotone_fst _ _ hj
  let out := g.edges.filter fun e => e.source = i && e.weight.isConfigurationDependency
  have hsplit : ∀ j, g.edges.countP (g.waits s.order j) =
      g.edges.countP (g.waits (s.order ++ [g.nodeRefAt i]) j) + out.countP (·.target = j) := by
    intro j
    rw [List.countP_eq_countP_filter_add _ _ (fun e => decide (e.source = i)), Nat.add_comm,
      List.countP_filter, List.countP_filter, List.countP_filter]
    congr 1
    · refine List.countP_congr fun e _ => ?_
      simp [waits, g.nodeRefAt_injective.eq_iff, and_assoc]
    · refine List.countP_congr fun e _ => ?_
      simp only [waits, Bool.and_eq_true, decide_eq_true_eq]
      constructor
      · rintro ⟨⟨⟨rfl, hdep⟩, -⟩, rfl⟩
        exact ⟨rfl, rfl, hdep⟩
      · rintro ⟨rfl, rfl, hdep⟩
        exact ⟨⟨⟨rfl, hdep⟩, hnew⟩, rfl⟩
  obtain ⟨s', hs', horder, hwaiting, hready⟩ := release_all out
    { s with
      ready := s.ready.erase (g.readyModel i)
      order := s.order ++ [g.nodeRefAt i] } fun j => by
    rw [h.waiting, hsplit]
    exact Nat.le_add_left ..
  have hwaits : ∀ j, s'.waitingOn j = g.edges.countP (g.waits s'.order j) := by
    intro j
    rw [hwaiting, horder, h.waiting, hsplit, Nat.add_sub_cancel]
  refine ⟨s', hmin ▸ hs', ⟨?_, hwaits, fun m => ?_⟩, by simp [horder]⟩
  · exact horder ▸ h.greedy.concat hnext hleast
  · simp only [hready, hwaiting, horder, Finset.mem_erase, h.ready, List.mem_append,
      List.mem_singleton, g.nodeRefAt_injective.eq_iff, not_or]
    constructor
    · rintro (⟨hne, j, rfl, hj, hjzero⟩ | ⟨j, rfl, hpos, heq⟩)
      · exact ⟨j, rfl, ⟨hj, fun he => hne (he ▸ rfl)⟩, by rw [hjzero, Nat.zero_sub]⟩
      · refine ⟨j, rfl, ⟨fun hj => ?_, fun he => ?_⟩, by rw [heq, Nat.sub_self]⟩
        · -- what was created before waits for nothing
          obtain ⟨pre, hpre, hsub⟩ := h.greedy.next_of_mem hj
          have := countP_waits_eq_zero.mpr fun d hd => hsub d (hpre.2.2 d hd)
          rw [← h.waiting] at this
          omega
        · rw [he] at heq hpos
          omega
    · rintro ⟨j, rfl, ⟨hj, hne⟩, hjzero⟩
      by_cases hout : out.countP (·.target = j) = 0
      · refine .inl ⟨fun he => hne ?_, j, rfl, hj, by rwa [hout] at hjzero⟩
        exact congrArg (fun m => (ofLex m).2) he
      · have := hsplit j
        rw [← h.waiting] at this
        exact .inr ⟨j, rfl, by omega, by omega⟩

theorem Counts.mem_of_length {s : g.Creation} (h : Counts g s)
    (hlen : g.nodeCount ≤ s.order.length) (i) : g.nodeRefAt i ∈ s.order := by
  have hsub : s.order.toFinset ⊆ Finset.univ.image g.nodeRefAt := by
    intro r hr
    obtain ⟨pre, ⟨hr, -⟩, -⟩ := h.greedy.next_of_mem (List.mem_toFinset.mp hr)
    simpa [models] using hr
  have heq := Finset.eq_of_subset_of_card_le hsub (by
    rw [Finset.card_image_of_injective _ g.nodeRefAt_injective, Finset.card_fin,
      List.toFinset_card_of_nodup h.greedy.nodup]
    exact hlen)
  rw [← List.mem_toFinset, heq]
  exact Finset.mem_image_of_mem _ (Finset.mem_univ i)

theorem popAll_spec {s : g.Creation} (h : Counts g s) (hlen : g.nodeCount ≤ s.order.length + n) :
    ∃ s', g.popAll n s = some s' ∧ Counts g s' ∧ s'.ready = ∅ := by
  induction n generalizing s with
  | zero =>
    refine ⟨s, rfl, h, Finset.eq_empty_of_forall_notMem fun m hm => ?_⟩
    obtain ⟨i, -, hi, -⟩ := (h.ready m).mp hm
    exact hi (h.mem_of_length hlen i)
  | succ n ih =>
    rw [popAll]
    split
    · rename_i hnonempty
      obtain ⟨s₁, hs₁, h₁, hlen₁⟩ := h.create hnonempty
      rw [hs₁]
      exact ih h₁ (by omega)
    · exact ⟨s, rfl, h, Finset.not_nonempty_iff_eq_empty.mp ‹_›⟩

/-- Either every Model is ordered, or the dependencies contain a cycle. -/
theorem creationOrder_spec (g : ActiveGraph Name) :
    (∃ order, g.creationOrder = some (some order) ∧
      Greedy g.models g.Requires NodeRef.place order ∧ Orders g.models g.Requires order) ∨
    g.creationOrder = some none ∧ ∃ r, TransGen g.Requires r r := by
  obtain ⟨s, hs, h, hempty⟩ := popAll_spec counts_start (Nat.le_add_left g.nodeCount _)
  rw [creationOrder, hs]
  by_cases hlen : s.order.length = g.nodeCount
  · refine .inl ⟨s.order, by simp [hlen], h.greedy, h.greedy.orders ?_⟩
    rintro _ ⟨i, rfl⟩
    exact h.mem_of_length hlen.ge i
  · refine .inr ⟨by simp [hlen], ?_⟩
    by_contra hacyclic
    -- with no cycle something could still come next, which the empty ready set denies
    have hall : ∀ r ∈ g.models, r ∈ s.order := by
      intro r hr
      by_contra hnew
      obtain ⟨_, ⟨i, rfl⟩, hi⟩ := exists_next (Set.finite_range g.nodeRefAt) (not_exists.mp hacyclic)
        subset_rfl (fun d i ⟨e, _, _, hd, _⟩ _ => ⟨_, hd⟩) hr hnew
      simpa [hempty] using (h.ready _).mpr ⟨i, rfl, h.next_iff.mp hi⟩
    refine hlen ?_
    have horders := h.greedy.orders hall
    have hperm : s.order.Perm ((List.finRange g.nodeCount).map g.nodeRefAt) := by
      refine (List.perm_ext_iff_of_nodup horders.nodup
        ((List.nodup_finRange _).map g.nodeRefAt_injective)).mpr fun r => ?_
      simp [horders.mem, models]
    simpa using hperm.length_eq

omit [LinearOrder Name] in
theorem acyclic_of_orders (h : Orders g.models g.Requires order) :
    ¬∃ r, TransGen g.Requires r r := by
  rintro ⟨r, hr⟩
  obtain ⟨d, -, e, -, -, -, he⟩ := Relation.TransGen.tail'_iff.mp hr
  exact h.acyclic ⟨_, he⟩ hr

/-- What the checks of a domain's Models leave of the edges into a lookup and below: a lookup
requires its codec, a codec its schema and its wire schema, and these nothing. -/
structure Validated (g : ActiveGraph Name) : Prop where
  lookup : g.Requires d r → r.kind = .lookup → d.kind = .codec
  codec : g.Requires d r → r.kind = .codec →
    d.kind ∈ [.schema, .wireJsonSchema, .wireCborSchema, .wireAvroSchema]
  schema : g.Requires d r →
    r.kind ∉ [ModelKind.schema, .wireJsonSchema, .wireCborSchema, .wireAvroSchema]

theorem Validated.lookup_mem (hg : g.Validated) (hacyclic : ∀ r, ¬TransGen g.Requires r r)
    (h : Greedy g.models g.Requires NodeRef.place order) (he : order = pre ++ m :: post)
    (hrank : creationRank .lookup < creationRank m.kind) (hl : l ∈ g.models)
    (hlookup : l.kind = .lookup) : l ∈ pre := by
  let below := [ModelKind.schema, .wireJsonSchema, .wireCborSchema, .wireAvroSchema, .codec, .lookup]
  have hclosed : ∀ d r, g.Requires d r → r ∈ g.models ∧ r.kind ∈ below →
      d ∈ g.models ∧ d.kind ∈ below := by
    rintro d r hd ⟨-, hr⟩
    refine ⟨hd.elim fun e he => ⟨_, he.2.2.1⟩, ?_⟩
    have hcodec := hg.codec hd
    have hlookup := hg.lookup hd
    have hschema := hg.schema hd
    simp only [below, List.mem_cons, List.not_mem_nil, or_false, not_or] at *
    grind
  have hbelow : ∀ k ∈ below, creationRank k ≤ creationRank .lookup := by decide
  by_contra hnew
  obtain ⟨r, ⟨-, hr⟩, hnext⟩ := exists_next (Set.finite_range g.nodeRefAt) hacyclic (fun _ hr => hr.1) hclosed
    ⟨hl, by simp [below, hlookup]⟩ hnew
  have hle : m.place ≤ r.place := (h pre m post he).2 r hnext
  exact absurd ((Prod.Lex.monotone_fst _ _ hle).trans (hbelow _ hr)) (not_le.mpr hrank)

/-- The creation order fails exactly on a cycle. Otherwise it lists every Model after what it
requires, is the least such list by rank and name, and has every lookup before the kinds ranked
after lookups. It depends on the Models and what they require, not on how the graph was built. -/
theorem creation_order_least (g : ActiveGraph Name) :
    (g.creationOrder = some none ↔ ∃ r, TransGen g.Requires r r) ∧
    ((∀ r, ¬TransGen g.Requires r r) → ∃ order, g.creationOrder = some (some order) ∧
      Orders g.models g.Requires order ∧
      (∀ order', Orders g.models g.Requires order' →
        order.map NodeRef.place ≤ order'.map NodeRef.place) ∧
      (g.Validated → ∀ pre m post, order = pre ++ m :: post →
        creationRank .lookup < creationRank m.kind →
        ∀ l ∈ g.models, l.kind = .lookup → l ∈ pre)) ∧
    ∀ g' : ActiveGraph Name, g'.models = g.models → (∀ d r, g'.Requires d r ↔ g.Requires d r) →
      g'.creationOrder = g.creationOrder := by
  refine ⟨?_, fun hacyclic => ?_, fun g' hmodels hrequires => ?_⟩
  · rcases creationOrder_spec g with ⟨order, horder, -, h⟩ | ⟨hnone, hcycle⟩
    · exact iff_of_false (by simp [horder]) (acyclic_of_orders h)
    · exact iff_of_true hnone hcycle
  · obtain ⟨order, horder, hgreedy, h⟩ :=
      (creationOrder_spec g).resolve_right fun h => h.2.elim hacyclic
    refine ⟨order, horder, h, fun order' => hgreedy.le NodeRef.place_injective h, ?_⟩
    intro hg pre m post he hrank l hl hlookup
    exact hg.lookup_mem hacyclic hgreedy he hrank hl hlookup
  · have hspec' := creationOrder_spec g'
    rw [hmodels, show g'.Requires = g.Requires from funext₂ fun d r => propext (hrequires d r)]
      at hspec'
    rcases creationOrder_spec g, hspec' with
      ⟨⟨order, horder, hgreedy, h⟩ | ⟨hnone, hcycle⟩,
        ⟨order', horder', hgreedy', h'⟩ | ⟨hnone', hcycle'⟩⟩
    · have hplace := le_antisymm (hgreedy.le NodeRef.place_injective h h')
        (hgreedy'.le NodeRef.place_injective h' h)
      rw [horder, horder', List.map_injective_iff.mpr NodeRef.place_injective hplace]
    · exact absurd hcycle' (acyclic_of_orders h)
    · exact absurd hcycle (acyclic_of_orders h')
    · rw [hnone, hnone']

/-- A relay, a lookup and its codec, added in this order: the lookup is created before the relay,
although no edge joins them. -/
theorem creation_order_lookup_first :
    let g : ActiveGraph ℕ :=
      { nodeCount := 3
        nodeRefAt := ![⟨.relay, 0⟩, ⟨.lookup, 1⟩, ⟨.codec, 2⟩]
        edges := [⟨2, 1, .requiredBy⟩]
        nodeRefAt_injective := by decide }
    ∃ order, g.creationOrder = some (some order) ∧
      ∀ pre post, order = pre ++ ⟨.relay, 0⟩ :: post → ⟨.lookup, 1⟩ ∈ pre := by
  intro g
  have hrequires : ∀ d r, g.Requires d r → d = ⟨.codec, 2⟩ ∧ r = ⟨.lookup, 1⟩ := by
    rintro d r ⟨e, he, -, rfl, rfl⟩
    cases List.mem_singleton.mp he
    exact ⟨rfl, rfl⟩
  obtain ⟨order, horder, -, -, hlookup⟩ := (creation_order_least g).2.1 fun r hr => by
    obtain ⟨_, -, hlast⟩ := Relation.TransGen.tail'_iff.mp hr
    obtain ⟨_, hfirst, -⟩ := Relation.TransGen.head'_iff.mp hr
    exact absurd ((hrequires _ _ hlast).2.symm.trans (hrequires _ _ hfirst).1) (by decide)
  refine ⟨order, horder, fun pre post he => ?_⟩
  refine hlookup ⟨fun h _ => ?_, fun h hr => ?_, fun h => ?_⟩ pre _ post he (by decide) _
    ⟨1, rfl⟩ rfl
  · rw [(hrequires _ _ h).1]
  · rw [(hrequires _ _ h).2] at hr
    cases hr
  · rw [(hrequires _ _ h).2]
    decide

end ActiveGraph

end Nervix.Registry
