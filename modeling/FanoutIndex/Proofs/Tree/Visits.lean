import FanoutIndex.Proofs.Layout.Depth
import FanoutIndex.Proofs.Tree.Writes
import FanoutIndex.Tree.Stats

namespace FanoutIndex

variable {w n : Nat} {V : Type}

theorem isGreatest_foldl_max (first : Nat) (rest : List Nat) :
    IsGreatest {d | d ∈ first :: rest} (rest.foldl max first) := by
  induction rest generalizing first with
  | nil => simp [isGreatest_singleton]
  | cons second rest ih =>
    obtain ⟨hmem, hup⟩ := ih (max first second)
    constructor
    · rw [List.foldl_cons]
      rcases List.mem_cons.1 hmem with heq | hrest
      · rw [heq]
        rcases max_choice first second with h | h <;> simp [h]
      · simp [hrest]
    · intro d hd
      have hmax : max first second ≤ rest.foldl max (max first second) := hup List.mem_cons_self
      rcases List.mem_cons.1 hd with rfl | hd
      · exact (le_max_left _ _).trans hmax
      · rcases List.mem_cons.1 hd with rfl | hd
        · exact (le_max_right _ _).trans hmax
        · exact hup (List.mem_cons_of_mem _ hd)

namespace Node

variable (node : Node w n V)

theorem face_key_of_lt_occupied {slot : Fin w} (h : slot.val < node.occupied) :
    ∃ key, node.face.key slot = some key := by
  have hlt : slot.val < node.values.toList.length := by simp
  have hsome : Option.isNone node.values.toList[slot.val] = false := List.not_of_lt_findIdx h
  rw [Vector.getElem_toList] at hsome
  obtain ⟨value, hvalue⟩ := Option.isSome_iff_exists.1 (by simpa using hsome)
  exact ⟨node.keys.get slot, by simp [face_key, get_eq_getElem, hvalue]⟩

theorem face_key_occupied (h : node.occupied < w) : node.face.key ⟨node.occupied, h⟩ = none := by
  have hlt : node.values.toList.findIdx Option.isNone < node.values.toList.length := by
    rw [Vector.length_toList]
    exact h
  have hnone := List.findIdx_getElem (w := hlt)
  rw [Vector.getElem_toList, Option.isNone_iff_eq_none] at hnone
  exact node.face_key_eq_none_iff.2 hnone

/-- Where there is no gap, the occupied slots are those before the first vacant one. -/
theorem exists_face_key_iff {slot : Fin w} (dense : node.face.Dense) :
    (∃ key, node.face.key slot = some key) ↔ slot.val < node.occupied := by
  constructor
  · rintro ⟨key, hkey⟩
    by_contra hle
    have hlt : node.occupied < w := (Nat.le_of_not_lt hle).trans_lt slot.isLt
    have hnone := node.face_key_occupied hlt
    rcases Nat.lt_or_eq_of_le (Nat.le_of_not_lt hle) with hbefore | heq
    · exact dense ⟨_, hlt⟩ slot hbefore (by simp [hkey]) hnone
    · rw [show slot = ⟨_, hlt⟩ from Fin.ext heq.symm] at hkey
      cases hnone.symm.trans hkey
  · exact node.face_key_of_lt_occupied

end Node

namespace Tree

variable (tree : Tree w n V)

theorem stackWeight_visit_lt (i d : Nat) (rest : List (Nat × Nat)) :
    tree.stackWeight ((((tree.children i).map fun entry => (entry.2, d + 1)).reverse ++ rest).map
      (·.1)) < tree.stackWeight (((i, d) :: rest).map (·.1)) := by
  have h := tree.stackWeight_children_lt i
  have e : (((tree.children i).map fun entry => (entry.2, d + 1)).map Prod.fst) =
      (tree.children i).map (·.2) := by simp
  rw [List.map_append, List.map_reverse, e, stackWeight_append, stackWeight_reverse, List.map_cons,
    stackWeight_cons]
  exact Nat.add_lt_add_right h _

/-- The nodes that a walk visits, with their depths, in the order of the visits. -/
def visitsFrom (stack : List (Nat × Nat)) : List (Nat × Nat) :=
  match stack with
  | [] => []
  | (i, d) :: rest =>
    (i, d) :: visitsFrom (((tree.children i).map fun entry => (entry.2, d + 1)).reverse ++ rest)
  termination_by tree.stackWeight (stack.map (·.1))
  decreasing_by exact tree.stackWeight_visit_lt i d rest

def visits : List (Nat × Nat) := tree.visitsFrom [(root, 1)]

theorem statsFrom_eq (stack : List (Nat × Nat)) (stats : Stats) :
    tree.statsFrom stack stats =
      { nodes := stats.nodes + (tree.visitsFrom stack).length
        entries := stats.entries +
          ((tree.visitsFrom stack).map fun v => (tree.node v.1).occupied).sum
        maxDepth := ((tree.visitsFrom stack).map (·.2)).foldl max stats.maxDepth } := by
  fun_induction statsFrom with
  | case1 => simp [visitsFrom]
  | case2 stats i d rest below ih =>
    rw [ih, visitsFrom]
    simp [below]
    omega

theorem mem_below_iff {i d : Nat} {v : Nat × Nat} :
    v ∈ (tree.children i).map (fun entry => (entry.2, d + 1)) ↔
      ∃ link, (tree.layout i).link link = some v.1 ∧ v.2 = d + 1 := by
  rw [List.mem_map]
  constructor
  · rintro ⟨⟨link, c⟩, hmem, rfl⟩
    exact ⟨link, Node.mem_children_iff.1 hmem, rfl⟩
  · rintro ⟨link, hlink, hdepth⟩
    exact ⟨(link, v.1), Node.mem_children_iff.2 hlink, Prod.ext rfl hdepth.symm⟩

variable {tree} {stack : List (Nat × Nat)} {i d j e : Nat}

/-- A walk visits what is below the nodes on its stack. -/
theorem mem_visitsFrom_iff :
    (j, e) ∈ tree.visitsFrom stack ↔ ∃ v ∈ stack, tree.layout.Below v.1 v.2 j e := by
  fun_induction visitsFrom with
  | case1 => simp
  | case2 i d rest ih =>
    rw [List.mem_cons, ih, List.exists_mem_cons_iff, Layout.below_iff, Prod.mk.injEq, or_assoc]
    simp only [List.mem_append, List.mem_reverse, mem_below_iff]
    refine or_congr_right ?_
    constructor
    · rintro ⟨v, ⟨link, hlink, hdepth⟩ | hv, hbelow⟩
      · rw [hdepth] at hbelow
        exact .inl ⟨link, v.1, hlink, hbelow⟩
      · exact .inr ⟨v, hv, hbelow⟩
    · rintro (⟨link, c, hlink, hbelow⟩ | ⟨v, hv, hbelow⟩)
      · exact ⟨(c, d + 1), .inl ⟨link, hlink, rfl⟩, hbelow⟩
      · exact ⟨v, .inr hv, hbelow⟩

def Disjoint (tree : Tree w n V) (a b : Nat × Nat) : Prop :=
  ∀ j e f, tree.layout.Below a.1 a.2 j e → ¬tree.layout.Below b.1 b.2 j f

theorem pairwise_children (sound : tree.layout.Sound) (i d : Nat) :
    ((tree.children i).map fun entry => (entry.2, d + 1)).Pairwise tree.Disjoint := by
  rw [List.pairwise_map, children, Node.children, List.pairwise_filterMap]
  refine (List.nodup_finRange (w + 1)).imp ?_
  intro l m hne a ha b hb j e f hj hj'
  obtain ⟨c, hc, rfl⟩ := Option.map_eq_some_iff.1 ha
  obtain ⟨c', hc', rfl⟩ := Option.map_eq_some_iff.1 hb
  obtain rfl := hj.sibling_unique sound.forest hc hc' hj'
  exact hne (sound.oneParent _ _ _ _ _ hc hc').2

/-- A walk visits no node twice. -/
theorem nodup_visitsFrom (sound : tree.layout.Sound) (apart : stack.Pairwise tree.Disjoint) :
    ((tree.visitsFrom stack).map (·.1)).Nodup := by
  fun_induction visitsFrom with
  | case1 => exact List.nodup_nil
  | case2 i d rest ih =>
    rw [List.pairwise_cons] at apart
    have child {v : Nat × Nat}
        (hv : v ∈ (tree.children i).map fun entry => (entry.2, d + 1)) {j e : Nat}
        (h : tree.layout.Below v.1 v.2 j e) : tree.layout.Below i d j e := by
      obtain ⟨link, hlink, hdepth⟩ := tree.mem_below_iff.1 hv
      rw [hdepth] at h
      exact (Layout.Below.step .here hlink).trans h
    rw [List.map_cons, List.nodup_cons]
    constructor
    · -- Links lead to younger nodes, so the node is not below itself.
      intro hmem
      obtain ⟨⟨j, e⟩, hvisit, rfl⟩ := List.mem_map.1 hmem
      obtain ⟨v, hv, hbelow⟩ := mem_visitsFrom_iff.1 hvisit
      rcases List.mem_append.1 hv with hv | hv
      · obtain ⟨link, hlink, _⟩ := tree.mem_below_iff.1 (List.mem_reverse.1 hv)
        have hle := hbelow.le sound.forest
        have hlt := sound.forward _ _ _ hlink
        omega
      · exact apart.1 v hv j d e .here hbelow
    · apply ih
      rw [List.pairwise_append]
      refine ⟨?_, apart.2, ?_⟩
      · rw [List.pairwise_reverse]
        exact (pairwise_children sound i d).imp fun h j e f ha hb => h j f e hb ha
      · intro a ha b hb j e f hj hj'
        exact apart.1 b hb j e f (child (List.mem_reverse.1 ha) hj) hj'

theorem mem_visits_iff : (j, e) ∈ tree.visits ↔ tree.layout.HasDepth j e := by
  rw [visits, mem_visitsFrom_iff]
  simp [Layout.HasDepth]

theorem nodup_visits (sound : tree.layout.Sound) : (tree.visits.map (·.1)).Nodup :=
  nodup_visitsFrom sound (List.pairwise_singleton _ _)

theorem mem_map_visits_iff : i ∈ tree.visits.map (·.1) ↔ tree.layout.Reachable i := by
  rw [List.mem_map]
  constructor
  · rintro ⟨⟨j, e⟩, hmem, rfl⟩
    exact (mem_visits_iff.1 hmem).reachable
  · intro h
    obtain ⟨d, hd⟩ := h.exists_hasDepth
    exact ⟨(i, d), mem_visits_iff.2 hd, rfl⟩

theorem exists_key_iff (sound : tree.layout.Sound) {slot : Fin w} :
    (∃ key, (tree.layout i).key slot = some key) ↔ slot.val < (tree.node i).occupied :=
  (tree.node i).exists_face_key_iff sound.dense

theorem mem_entries_iff_lt (sound : tree.layout.Sound) {slot : Fin w} :
    (i, slot) ∈ tree.entries ↔
      tree.layout.Reachable i ∧ slot.val < (tree.node i).occupied := by
  rw [← exists_key_iff sound]
  constructor
  · rintro ⟨key, value, h⟩
    exact ⟨h.1, key, h.face_key⟩
  · rintro ⟨hreach, key, hkey⟩
    obtain ⟨value, hstored⟩ := Node.exists_stored?_of_face_key hkey
    exact ⟨key, value, hreach, hstored⟩

/-- The statistics count the nodes in use. -/
theorem nodes_stats (sound : tree.layout.Sound) : tree.stats.nodes = tree.reached.ncard := by
  have hset : tree.reached = (tree.visits.map (·.1)).toFinset := by
    ext i
    simp only [List.coe_toFinset, Set.mem_ofPred_eq, mem_map_visits_iff]
    rfl
  rw [hset, Set.ncard_coe_finset, List.toFinset_card_of_nodup (nodup_visits sound),
    List.length_map, stats, statsFrom_eq]
  exact Nat.zero_add _

theorem entries_stats (sound : tree.layout.Sound) : tree.stats.entries = tree.entries.ncard := by
  have hset : tree.entries = ((tree.visits.map (·.1)).toFinset.sigma fun i =>
      Finset.univ.filter fun slot : Fin w => slot.val < (tree.node i).occupied).map
        (Equiv.sigmaEquivProd Nat (Fin w)).toEmbedding := by
    ext ⟨i, slot⟩
    rw [mem_entries_iff_lt sound, ← mem_map_visits_iff]
    simp
  rw [hset, Set.ncard_coe_finset, Finset.card_map, Finset.card_sigma,
    List.sum_toFinset _ (nodup_visits sound), List.map_map, stats, statsFrom_eq]
  simp only [Fin.card_filter_val_lt, Function.comp_def, Node.occupied_le, min_eq_right]
  exact Nat.zero_add _

theorem maxDepth_stats (tree : Tree w n V) :
    IsGreatest {d | ∃ i, tree.layout.HasDepth i d} tree.stats.maxDepth := by
  have hmax : tree.stats.maxDepth = (tree.visits.map (·.2)).foldl max 0 := by
    rw [stats, statsFrom_eq]
    rfl
  have hmem {d : Nat} : d ∈ tree.visits.map (·.2) ↔ ∃ i, tree.layout.HasDepth i d := by
    simp [← mem_visits_iff]
  obtain ⟨hgreatest, hup⟩ := isGreatest_foldl_max 0 (tree.visits.map (·.2))
  rw [← hmax] at hgreatest hup
  have hroot : 1 ≤ tree.stats.maxDepth :=
    hup (List.mem_cons_of_mem _ (hmem.2 ⟨root, .here⟩))
  constructor
  · rcases List.mem_cons.1 hgreatest with hzero | h
    · omega
    · exact hmem.1 h
  · intro d hd
    exact hup (List.mem_cons_of_mem _ (hmem.2 hd))

end Tree

end FanoutIndex
