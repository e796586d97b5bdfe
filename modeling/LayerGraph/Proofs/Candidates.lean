import LayerGraph.Proofs.Lists
import LayerGraph.Proofs.Starts

namespace LayerGraph

namespace Graph

variable {g : Graph} {a b id : NodeId} {n : Node} {between : List Node}

def Connects (g : Graph) (a b : NodeId) : Prop := ∃ e ∈ g.edges, e.source = a ∧ e.target = b

/-- Connections lead from `a` to `b`, one after the other, through the placeholders in between. -/
structure Bridges (g : Graph) (a : NodeId) (between : List Node) (b : NodeId) : Prop where
  placeholders : ∀ x ∈ between, x ∈ g.nodes ∧ x.isPlaceholder = true
  path : (a :: (between.map (·.id) ++ [b])).IsChain g.Connects

/-- A registered block that nothing bridges to from a registered block, be it the same one. -/
structure Candidate (g : Graph) (id : NodeId) : Prop where
  registered : ∃ n ∈ g.nodes, n.id = id ∧ n.isPlaceholder = false
  first : ∀ m ∈ g.nodes, m.isPlaceholder = false → ∀ between, ¬ g.Bridges m.id between id

theorem bridges_nil_iff : g.Bridges a [] b ↔ g.Connects a b := by
  constructor
  · exact fun h => List.isChain_pair.mp h.path
  · exact fun h => ⟨by simp, List.isChain_pair.mpr h⟩

theorem bridges_cons_iff : g.Bridges a (n :: between) b ↔
    (n ∈ g.nodes ∧ n.isPlaceholder = true) ∧ g.Connects a n.id ∧ g.Bridges n.id between b := by
  constructor
  · rintro ⟨hbetween, hpath⟩
    rw [List.forall_mem_cons] at hbetween
    rw [List.map_cons, List.cons_append, List.isChain_cons_cons] at hpath
    exact ⟨hbetween.1, hpath.1, hbetween.2, hpath.2⟩
  · rintro ⟨hn, han, hbetween, hpath⟩
    exact ⟨List.forall_mem_cons.mpr ⟨hn, hbetween⟩, List.isChain_cons_cons.mpr ⟨han, hpath⟩⟩

theorem Bridges.concat (h : g.Bridges a between n.id) (hn : n ∈ g.nodes)
    (hp : n.isPlaceholder = true) (hb : g.Connects n.id b) : g.Bridges a (between ++ [n]) b := by
  constructor
  · intro x hx
    rcases List.mem_append.mp hx with hx | hx
    · exact h.placeholders x hx
    · obtain rfl := List.mem_singleton.mp hx
      exact ⟨hn, hp⟩
  · have hpath : (a :: between.map (·.id) ++ n.id :: [b]).IsChain g.Connects :=
      List.isChain_split.mpr ⟨h.path, List.isChain_pair.mpr hb⟩
    rw [List.map_append, List.map_singleton, List.append_assoc]
    exact hpath

/-- What data come to is what a registered block bridges to. -/
theorem exists_feeds_iff (hg : WellFormed g) :
    (∃ a, g.Feeds a ∧ g.Connects a b) ↔
      ∃ m ∈ g.nodes, m.isPlaceholder = false ∧ ∃ between, g.Bridges m.id between b := by
  constructor
  · rintro ⟨a, ha, hab⟩
    induction ha generalizing b with
    | @registered m hm hk => exact ⟨m, hm, hk, [], bridges_nil_iff.mpr hab⟩
    | @through a x _ hx hp ih =>
      obtain ⟨m, hm, hk, between, hbridges⟩ := ih (mem_successors_iff.mp hx)
      obtain ⟨n, hn, rfl⟩ := List.mem_map.mp (successors_subset hg a hx)
      rw [isPlaceholder_of_mem hg hn] at hp
      exact ⟨m, hm, hk, between ++ [n], hbridges.concat hn hp hab⟩
  · rintro ⟨m, hm, hk, between, hbridges⟩
    have hfeeds : g.Feeds m.id := .registered hm hk
    generalize m.id = a at hbridges hfeeds
    -- along the placeholders, data come out of each
    induction between generalizing a with
    | nil => exact ⟨a, hfeeds, bridges_nil_iff.mp hbridges⟩
    | cons n between ih =>
      obtain ⟨⟨hn, hp⟩, han, hrest⟩ := bridges_cons_iff.mp hbridges
      refine ih n.id hrest (.through hfeeds (mem_successors_iff.mpr han) ?_)
      rw [isPlaceholder_of_mem hg hn, hp]

open Classical in
theorem mem_startCandidates_iff (hg : WellFormed g) :
    id ∈ g.startCandidates ↔ g.Candidate id := by
  rw [startCandidates_eq hg, List.mem_map]
  have hfed : ∀ j, (∀ a, j ∈ g.successors a → ¬ g.Feeds a) ↔
      ∀ m ∈ g.nodes, m.isPlaceholder = false → ∀ between, ¬ g.Bridges m.id between j := by
    intro j
    have h := not_congr (exists_feeds_iff hg (b := j))
    simp only [not_exists, not_and] at h
    rw [← h]
    exact forall_congr' fun a => by rw [mem_successors_iff, imp_not_comm, Connects]
  constructor
  · rintro ⟨n, hn, rfl⟩
    obtain ⟨hn, hfirst⟩ := List.mem_filter.mp hn
    obtain ⟨hk, hfirst⟩ := of_decide_eq_true hfirst
    exact ⟨⟨n, hn, rfl, hk⟩, (hfed n.id).mp hfirst⟩
  · rintro ⟨⟨n, hn, rfl, hk⟩, hfirst⟩
    exact ⟨n, List.mem_filter.mpr ⟨hn, decide_eq_true ⟨hk, (hfed n.id).mpr hfirst⟩⟩, rfl⟩

/-- The placeholders that connections out of a block lead to. -/
def placeholdersBehind (g : Graph) (id : NodeId) : List NodeId :=
  (g.successors id).filter g.isPlaceholder

/-- The search as it begins. The stack is taken from its end, so that what came last is on top. -/
def placeholderSearch (g : Graph) : Walker NodeId :=
  ⟨[], ((g.nodes.filter (!·.isPlaceholder)).flatMap (g.placeholdersBehind ·.id)).reverse⟩

/-- Every connection puts a placeholder on the stack once at most. -/
theorem turnsLeft_placeholderSearch_le (hg : WellFormed g) :
    g.placeholderSearch.turnsLeft (fun id => (g.placeholdersBehind id).reverse)
      (g.ids.filter g.isPlaceholder) ≤ g.edges.length := by
  have hregistered : (g.nodes.filter (!·.isPlaceholder)).map (·.id) =
      g.ids.filter (!g.isPlaceholder ·) := by
    rw [ids, List.filter_map]
    congr 1
    apply List.filter_congr
    intro n hn
    simp [isPlaceholder_of_mem hg hn]
  have hsplit := ((List.filter_append_perm g.isPlaceholder g.ids).map
    fun id => (g.placeholdersBehind id).length).sum_eq
  have hbehind : (g.ids.map fun id => (g.placeholdersBehind id).length).sum ≤ g.edges.length := by
    refine le_trans (List.sum_le_sum ?_) (sum_length_sources_le hg.ids_nodup g.edges)
    intro id _
    refine (List.length_filter_le _ _).trans ?_
    rw [successors, List.length_map, outgoing]
  rw [List.map_append, List.sum_append, ← hregistered, List.map_map] at hsplit
  simp only [Walker.turnsLeft, placeholderSearch, List.length_reverse, List.length_flatMap,
    List.diff_nil]
  rw [Nat.add_comm]
  exact hsplit.trans_le hbehind

/-- The search comes to an end after one turn for each connection, with all that it looks for. -/
theorem iterate_placeholderSearch (hg : WellFormed g) :
    ∃ fed, (∀ n, g.edges.length ≤ n →
      (Walker.turn fun id => (g.placeholdersBehind id).reverse)^[n] g.placeholderSearch =
        ⟨fed, []⟩) ∧ ∀ id, id ∈ fed ↔ id ∈ g.fedPlaceholders := by
  have hbehind : ∀ id, g.placeholdersBehind id ⊆ g.ids.filter g.isPlaceholder := fun id a ha =>
    List.mem_filter.mpr ((List.mem_filter.mp ha).imp_left fun h => successors_subset hg id h)
  have hids : g.ids.filter g.isPlaceholder ⊆ g.ids := List.filter_sublist.subset
  have hfirst : (g.nodes.filter (!·.isPlaceholder)).flatMap (g.placeholdersBehind ·.id) ⊆
      g.ids.filter g.isPlaceholder := by
    intro a ha
    obtain ⟨n, -, ha⟩ := List.mem_flatMap.mp ha
    exact hbehind n.id ha
  have hnodup : (g.ids.filter g.isPlaceholder).Nodup := hg.ids_nodup.filter _
  have hnext : ∀ id ∈ g.ids.filter g.isPlaceholder,
      (g.placeholdersBehind id).reverse ⊆ g.ids.filter g.isPlaceholder :=
    fun id _ => List.reverse_subset.mpr (hbehind id)
  have hstack : g.placeholderSearch.stack ⊆ g.ids.filter g.isPlaceholder :=
    List.reverse_subset.mpr hfirst
  refine ⟨walk (fun id => (g.placeholdersBehind id).reverse) (g.ids.filter g.isPlaceholder)
    g.placeholderSearch.stack, ?_, ?_⟩
  · intro n hn
    exact Walker.iterate_turn hnodup hnext hstack ((turnsLeft_placeholderSearch_le hg).trans hn)
  · -- both come to whatever there is behind the same placeholders
    intro id
    have hclosed : ∀ id ∈ g.ids, g.placeholdersBehind id ⊆ g.ids := fun id _ =>
      List.Subset.trans (hbehind id) hids
    have hfed := mem_walk_iff hg.ids_nodup hclosed (List.Subset.trans hfirst hids) (a := id)
    rw [mem_walk_iff hnodup hnext hstack]
    simp only [placeholderSearch, List.mem_reverse]
    exact hfed.symm

theorem findStart_eq_ok_iff {start : NodeId} :
    g.findStart = .ok start ↔ g.startCandidates = [start] := by
  unfold findStart
  split
  · rename_i id hid
    simp [hid]
  · rename_i hne
    exact iff_of_false nofun (hne start)

theorem findStart_of_ne (hne : ∀ start, g.startCandidates ≠ [start]) :
    g.findStart = .error (g.startCandidates.mergeSort fun a b => a.text ≤ b.text) := by
  unfold findStart
  split
  · rename_i id hid
    exact absurd hid (hne id)
  · rfl

/--
A graph starts at its only start candidate. When there is none, or more than one, they are reported,
each once and in the order of their ids. The search behind it comes to an end after one turn for
each connection.
-/
theorem findStart_candidates (hg : g.Reachable) :
    (∀ id, g.findStart = .ok id ↔ ∀ j, g.Candidate j ↔ j = id) ∧
    ((¬ ∃ id, ∀ j, g.Candidate j ↔ j = id) → ∃ ids, g.findStart = .error ids ∧
      g.linearize = .error (.ambiguousStart ids) ∧ ids.Nodup ∧
      ids.Pairwise (fun a b => a.text ≤ b.text) ∧ ∀ j, j ∈ ids ↔ g.Candidate j) ∧
    ∃ fed, (∀ n, g.edges.length ≤ n →
      (Walker.turn fun id => (g.placeholdersBehind id).reverse)^[n] g.placeholderSearch =
        ⟨fed, []⟩) ∧ ∀ id, id ∈ fed ↔ id ∈ g.fedPlaceholders := by
  have hw := hg.wellFormed
  have hnodup := nodup_startCandidates hw
  have honly : ∀ id, g.startCandidates = [id] ↔ ∀ j, g.Candidate j ↔ j = id := by
    intro id
    rw [← List.perm_singleton, List.perm_ext_iff_of_nodup hnodup (List.nodup_singleton id)]
    simp only [mem_startCandidates_iff hw, List.mem_singleton]
  refine ⟨fun id => findStart_eq_ok_iff.trans (honly id), ?_, iterate_placeholderSearch hw⟩
  intro hnone
  have herror := findStart_of_ne fun id hid => hnone ⟨id, (honly id).mp hid⟩
  have hperm := List.mergeSort_perm g.startCandidates fun a b => a.text ≤ b.text
  refine ⟨_, herror, by rw [linearize, herror], hperm.nodup_iff.mpr hnodup,
    pairwise_mergeSort_key NodeId.text _, ?_⟩
  intro j
  rw [hperm.mem_iff, mem_startCandidates_iff hw]

/--
A block that leads back to itself through two placeholders, which lead to each other, and one that
only a placeholder leads to that nothing leads to.
-/
def circled : List GraphOperation :=
  [.add (.new ⟨"a"⟩ 0 (.input ⟨12, 8⟩)), .add (.new ⟨"p"⟩ 0 (.unknown "textBlock" .null)),
   .add (.new ⟨"q"⟩ 0 (.unknown "textBlock" .null)), .add (.new ⟨"b"⟩ 1 (.output ⟨8, 4⟩)),
   .add (.new ⟨"note"⟩ 0 (.unknown "textBlock" .null)), .addEdge ⟨⟨"1"⟩, ⟨"a"⟩, ⟨"p"⟩⟩,
   .addEdge ⟨⟨"2"⟩, ⟨"p"⟩, ⟨"q"⟩⟩, .addEdge ⟨⟨"3"⟩, ⟨"q"⟩, ⟨"p"⟩⟩,
   .addEdge ⟨⟨"4"⟩, ⟨"q"⟩, ⟨"a"⟩⟩, .addEdge ⟨⟨"5"⟩, ⟨"note"⟩, ⟨"b"⟩⟩]

theorem findStart_candidates_circled :
    let g := circled.foldl GraphOperation.apply Graph.empty
    g.Reachable ∧ g.findStart = .ok ⟨"b"⟩ ∧ (∀ j, g.Candidate j ↔ j = ⟨"b"⟩) ∧
    (Walker.turn fun id => (g.placeholdersBehind id).reverse)^[5] g.placeholderSearch =
      ⟨[⟨"p"⟩, ⟨"q"⟩], []⟩ ∧ ∀ id, id ∈ g.fedPlaceholders ↔ id = ⟨"p"⟩ ∨ id = ⟨"q"⟩ := by
  intro g
  have hg : g.Reachable := ⟨circled, rfl⟩
  obtain ⟨hstart, -, fed, hsearch, hfed⟩ := findStart_candidates hg
  have hrun : (Walker.turn fun id => (g.placeholdersBehind id).reverse)^[5] g.placeholderSearch =
      ⟨[⟨"p"⟩, ⟨"q"⟩], []⟩ := by decide
  obtain rfl : fed = [⟨"p"⟩, ⟨"q"⟩] :=
    congrArg Walker.visited ((hsearch 5 (by decide)).symm.trans hrun)
  have hwalk : g.fedPlaceholders = [⟨"p"⟩, ⟨"q"⟩] :=
    (walk_eq_visited (n := 4) (by decide) (by decide) (by decide) (by decide)).trans (by decide)
  have hfirst : g.findStart = .ok ⟨"b"⟩ := by
    rw [findStart_eq_ok_iff, startCandidates, hwalk]
    decide
  refine ⟨hg, hfirst, (hstart _).mp hfirst, hrun, ?_⟩
  intro id
  rw [← hfed]
  simp

end Graph

end LayerGraph
