import LayerGraph.Proofs.Placeholders
import LayerGraph.Proofs.Rebuilt
import LayerGraph.Proofs.Reported

namespace LayerGraph

namespace Graph

variable {g g' h : Graph} {x : Node} {before after : List Node} {es : List Edge} {a b : NodeId}

/-- Whatever the placeholder leads to, the other blocks lead where they did. -/
structure Stray (x : Node) (before after : List Node) (g g' : Graph) : Prop
    extends WithPlaceholder x before after g g' where
  successors_eq : ∀ a, a ≠ x.id → g'.successors a = g.successors a

namespace Stray

/-- No data come to the placeholder, so none come out of it. -/
theorem feeds_iff (h : Stray x before after g g') : g'.Feeds a ↔ g.Feeds a := by
  constructor
  · intro ha
    induction ha with
    | @registered n hn hk =>
      rcases h.mem_nodes_iff.mp hn with rfl | hn
      · rw [h.isPlaceholder_node] at hk
        cases hk
      · exact .registered hn hk
    | through _ hb hp ih =>
      rw [h.successors_eq _ (h.ne_of_feeds ih)] at hb
      rw [h.isPlaceholder_eq] at hp
      exact .through ih hb hp
  · intro ha
    induction ha with
    | registered hn hk => exact .registered (h.mem_nodes_iff.mpr (.inr hn)) hk
    | through ha hb hp ih =>
      rw [← h.successors_eq _ (h.ne_of_feeds ha)] at hb
      rw [← h.isPlaceholder_eq] at hp
      exact .through ih hb hp

theorem exists_feeds_iff (h : Stray x before after g g') :
    (∃ a, b ∈ g'.successors a ∧ g'.Feeds a) ↔ ∃ a, b ∈ g.successors a ∧ g.Feeds a := by
  refine exists_congr fun a => ?_
  rw [h.feeds_iff]
  refine and_congr_left fun ha => ?_
  rw [h.successors_eq a (h.ne_of_feeds ha)]

theorem findStart_eq (h : Stray x before after g g') : g'.findStart = g.findStart :=
  h.toWithPlaceholder.findStart_eq fun _ _ => h.exists_feeds_iff

theorem ne_of_mem_reach (h : Stray x before after g g') {start : NodeId} (hs : start ∈ g.ids)
    (ha : a ∈ g.reach start) : a ≠ x.id := by
  rintro rfl
  exact h.not_mem_ids (reach_subset h.wellFormed hs ha)

theorem reach_eq (h : Stray x before after g g') {start : NodeId} (hs : start ∈ g.ids) :
    g'.reach start = g.reach start := by
  have hwalk := (depthFirst_reach h.wellFormed hs).congr fun a ha =>
    h.successors_eq a (h.ne_of_mem_reach hs ha)
  exact ((depthFirst_iff_reach h.wellFormed' (h.ids_subset hs)).mp hwalk).symm

theorem alongside (h : Stray x before after g g') : WithPlaceholder.Alongside x g g' where
  findStart_eq := h.findStart_eq
  filter_reach start hs := by
    have hstart := mem_ids_of_findStart hs
    rw [h.reach_eq hstart, List.filter_eq_self]
    intro a ha
    simpa using h.ne_of_mem_reach hstart ha

end Stray

namespace WithPlaceholder

theorem family_eq (h : WithPlaceholder x before after g g') (f : Family) :
    g'.family f = g.family f := by
  rw [← h.wellFormed'.map_id_members, ← h.wellFormed.map_id_members, h.members_eq]

theorem assignments_eq (h : WithPlaceholder x before after g g') (c : ShapeConfig) :
    g'.assignments c = g.assignments c := by
  have hneural : g'.neural = g.neural := h.family_eq .neural
  unfold assignments flattenedAssignment?
  rw [h.members_eq, h.members_eq, hneural, flattened?_congr h.members_eq]

theorem ne_of_mem_assignments (h : WithPlaceholder x before after g g') {c : ShapeConfig}
    {s : Assignment} (hs : s ∈ g.assignments c) : s.node ≠ x.id := by
  intro hne
  have hslot := isSome_slotValue?_of_determined h.wellFormed ((mem_assignments h.wellFormed).mp hs)
  rw [hne, slotValue?, h.node?_eq_none] at hslot
  cases hslot

/-- What is adjusted is what is reported, and the same is reported. -/
theorem reconcile_snd_eq (h : WithPlaceholder x before after g g') (c : ShapeConfig) :
    (g'.reconcile c).2 = (g.reconcile c).2 := by
  rw [← filterMap_mend?_validate h.wellFormed, ← filterMap_mend?_validate h.wellFormed',
    h.validate_eq]

end WithPlaceholder

/-- Adds a block, and then connections. -/
def attach (g : Graph) (x : Node) (es : List Edge) : Except GraphError Graph := do
  es.foldlM addEdge (← g.add x)

/-- A new block, and new connections from it to blocks that there are. -/
structure Attachable (x : Node) (es : List Edge) (g : Graph) : Prop where
  contains_eq : g.contains x.id = false
  ids_nodup : ((g.edges ++ es).map (·.id)).Nodup
  edge_ends : ∀ e ∈ es, e.source = x.id ∧ g.contains e.target = true

theorem family?_eq_none (hx : x.isPlaceholder = true) : x.family? = none := by
  obtain ⟨kind, data, hb⟩ := Block.eq_unknown_of_isPlaceholder hx
  rw [Node.family?, hb]
  rfl

/-- A placeholder that is attached comes between the others, into no family. -/
theorem exists_attach (hg : WellFormed g) (hx : x.isPlaceholder = true)
    (hes : Attachable x es g) :
    ∃ h before after, g.attach x es = .ok h ∧ Stray x before after g h := by
  have hadd : g.add x = .ok (g.place x) :=
    add_eq_ok_iff.mpr ⟨hes.contains_eq, (file_of_family?_eq_none (family?_eq_none hx)).symm⟩
  have hplace := wellFormed_add hg hadd
  have hids : (((g.place x).edges ++ es).map (·.id)).Nodup := by
    rw [edges_place]
    exact hes.ids_nodup
  have hends : ∀ e ∈ es, e.source ≠ e.target ∧ (g.place x).contains e.source = true ∧
      (g.place x).contains e.target = true := by
    intro e he
    obtain ⟨hs, ht⟩ := hes.edge_ends e he
    refine ⟨?_, ?_, contains_place hg x ht⟩
    · intro hst
      rw [← hst, hs, hes.contains_eq] at ht
      cases ht
    · exact contains_iff.mpr ⟨x, (nodes_place_perm hg x).mem_iff.mpr List.mem_cons_self, hs.symm⟩
  have hattach : g.attach x es = .ok { g.place x with edges := (g.place x).edges ++ es } :=
    bind_eq_ok_iff.mpr
      ⟨_, hadd, (foldlM_addEdge_eq_ok_iff hplace.edges_nodup).mpr ⟨hids, hends, rfl⟩⟩
  obtain ⟨before, after, hnodes, hnodes'⟩ := hg.sound.exists_entries_insert x
  rw [← arena_place] at hnodes'
  have hwell := wellFormed_addEdges hplace hids hends
  refine ⟨_, before, after, hattach, ⟨hg, hwell, hx, hnodes, hnodes',
    members_place hg hes.contains_eq⟩, ?_⟩
  intro a ha
  have hnone : es.filter (·.source = a) = [] := by
    rw [List.filter_eq_nil_iff]
    intro e he
    simpa [(hes.edge_ends e he).1] using Ne.symm ha
  simp only [successors, outgoing, edges_place, List.filter_append, hnone, List.append_nil]

/-- A change of the blocks that leaves one as it is may be made before that one is attached. -/
theorem attach_mapNodes {f : Node → Node} (hid : ∀ n, (f n).id = n.id)
    (hfamily : ∀ n, (f n).family? = n.family?)
    (horder : ∀ n, (f n).sequenceIndex = n.sequenceIndex) (hx : f x = x) (g : Graph)
    (es : List Edge) : (g.mapNodes f).attach x es = (g.attach x es).map (·.mapNodes f) := by
  have hadd := add_mapNodes hid hfamily horder g x
  rw [hx] at hadd
  have hedges := foldlM_map_comm (x := fun e : Edge => e) (addEdge_mapNodes hid) es
  rw [List.map_id'] at hedges
  unfold attach
  rw [hadd]
  cases g.add x with
  | error e => rfl
  | ok k => exact hedges k

theorem attach_assign (hg : WellFormed g) (hh : WellFormed h) (ha : g.attach x es = .ok h)
    {s : Assignment} (hs : s.node ≠ x.id) : (g.assign s).1.attach x es = .ok (h.assign s).1 := by
  rw [assign_fst hg, assign_fst hh, mapNode_eq_mapNodes, mapNode_eq_mapNodes, attach_mapNodes, ha]
  · rfl
  · intro n
    split <;> rfl
  · intro n
    split
    · exact Block.family?_setSlot _ _ _
    · rfl
  · intro n
    split <;> rfl
  · exact if_neg (Ne.symm hs)

theorem attach_assignAll (hg : WellFormed g) (hh : WellFormed h) (ha : g.attach x es = .ok h)
    {as : List Assignment} (has : ∀ s ∈ as, s.node ≠ x.id) :
    (g.assignAll as).1.attach x es = .ok (h.assignAll as).1 := by
  induction as generalizing g h with
  | nil => exact ha
  | cons s as ih =>
    obtain ⟨hs, has⟩ := List.forall_mem_cons.mp has
    rw [assignAll_cons, assignAll_cons]
    exact ih (wellFormed_assign hg s) (wellFormed_assign hh s) (attach_assign hg hh ha hs) has

/-- It makes no difference whether a placeholder is attached before reconciling or after it. -/
theorem attach_reconcile (h' : WithPlaceholder x before after g h) (ha : g.attach x es = .ok h)
    (c : ShapeConfig) : (g.reconcile c).1.attach x es = .ok (h.reconcile c).1 := by
  rw [reconcile_eq_assignAll h'.wellFormed, reconcile_eq_assignAll h'.wellFormed',
    h'.assignments_eq]
  exact attach_assignAll h'.wellFormed h'.wellFormed' ha fun _ => h'.ne_of_mem_assignments

/--
A placeholder is added with connections to any blocks. The start, or the blocks between which it is
not clear, stay as they were, and so does what is reported and adjusted. The graph compiles to the
same, or fails with the same error, but for the placeholder among the blocks that are left out.
-/
theorem attach_inert (hg : g.Reachable) (hx : x.isPlaceholder = true) (hes : Attachable x es g) :
    ∃ h before after, g.attach x es = .ok h ∧
      g.nodes = before ++ after ∧ h.nodes = before ++ x :: after ∧
      h.findStart = g.findStart ∧
      h.linearize = g.linearize.map
        ({ · with skipped := WithPlaceholder.skipped x before after }) ∧
      (∀ fallback options,
        h.compile fallback options = (g.compile fallback options).map
          ({ · with skipped := WithPlaceholder.skipped x before after }) ∧
        ∀ r, g.compile fallback options = .ok r →
          r.skipped = before.filterMap (·.skipped?) ++ after.filterMap (·.skipped?)) ∧
      ∀ c, h.validate c = g.validate c ∧ (h.reconcile c).2 = (g.reconcile c).2 ∧
        (g.reconcile c).1.attach x es = .ok (h.reconcile c).1 := by
  obtain ⟨h, before, after, ha, hstray⟩ := exists_attach hg.wellFormed hx hes
  have hplace := hstray.toWithPlaceholder
  refine ⟨h, before, after, ha, hplace.nodes_eq, hplace.nodes_eq', hstray.findStart_eq,
    hplace.linearize_eq hstray.alongside, ?_, ?_⟩
  · intro fallback options
    exact ⟨hplace.compile_eq hstray.alongside fallback options,
      fun _ => hplace.skipped_of_compile⟩
  · intro c
    exact ⟨hplace.validate_eq c, hplace.reconcile_snd_eq c, attach_reconcile hplace ha c⟩

/-- A slot was vacated between two placeholders. Nothing leads to the first one. -/
def vacated : List GraphOperation :=
  [.add (.new ⟨"note"⟩ 0 (.unknown "textBlock" .null)), .add (.new ⟨"old"⟩ 0 .start),
   .add (.new ⟨"in"⟩ 0 (.input ⟨4, 4⟩)), .add (.new ⟨"gap"⟩ 0 (.unknown "textBlock" .null)),
   .add (.new ⟨"out"⟩ 1 (.output ⟨3, 2⟩)), .addEdge ⟨⟨"1"⟩, ⟨"note"⟩, ⟨"in"⟩⟩,
   .addEdge ⟨⟨"2"⟩, ⟨"in"⟩, ⟨"gap"⟩⟩, .addEdge ⟨⟨"3"⟩, ⟨"gap"⟩, ⟨"out"⟩⟩, .remove ⟨"old"⟩]

/-- Another one takes the slot. It leads to the first one, to the start and to what is behind it. -/
theorem attach_inert_vacated :
    let g := vacated.foldl GraphOperation.apply Graph.empty
    let memo : Node := .new ⟨"memo"⟩ 0 (.unknown "codeBlock" .null)
    let es : List Edge := [⟨⟨"4"⟩, ⟨"memo"⟩, ⟨"note"⟩⟩, ⟨⟨"5"⟩, ⟨"memo"⟩, ⟨"in"⟩⟩,
      ⟨⟨"6"⟩, ⟨"memo"⟩, ⟨"out"⟩⟩]
    let model : Model :=
      { layers := [("fcl_input1", .input 4), ("fcl_output1", .dense 3 10 .softmax)]
        training := {} }
    let mismatch : Violation := .chainMismatch .neural ⟨"out"⟩ ⟨"in"⟩ 4 3
    g.Reachable ∧ memo.isPlaceholder = true ∧ Attachable memo es g ∧
    g.compile {} {} =
      .ok ⟨model, [⟨⟨"note"⟩, "textBlock"⟩, ⟨⟨"gap"⟩, "textBlock"⟩], [], [mismatch]⟩ ∧
    ∃ h, g.attach memo es = .ok h ∧ h.findStart = .ok ⟨"in"⟩ ∧
      h.compile {} {} = .ok ⟨model, [⟨⟨"note"⟩, "textBlock"⟩, ⟨⟨"memo"⟩, "codeBlock"⟩,
        ⟨⟨"gap"⟩, "textBlock"⟩], [], [mismatch]⟩ ∧
      (h.reconcile {}).2 = [⟨⟨"out"⟩, "sizeIn", 3, 4⟩] := by
  intro g memo es model mismatch
  have hg : g.Reachable := ⟨vacated, rfl⟩
  have hes : Attachable memo es g := ⟨by decide, by decide, by decide⟩
  have hfed : g.fedPlaceholders = [⟨"gap"⟩] :=
    (walk_eq_visited (n := 2) (by decide) (by decide) (by decide) (by decide)).trans (by decide)
  have hreach : g.reach ⟨"in"⟩ = [⟨"in"⟩, ⟨"gap"⟩, ⟨"out"⟩] :=
    (walk_eq_visited (n := 4) (by decide) (by decide) (by decide) (by decide)).trans (by decide)
  have hstart : g.findStart = .ok ⟨"in"⟩ := by
    unfold findStart startCandidates
    rw [hfed]
    decide
  have hcompile : g.compile {} {} =
      .ok ⟨model, [⟨⟨"note"⟩, "textBlock"⟩, ⟨⟨"gap"⟩, "textBlock"⟩], [], [mismatch]⟩ := by
    unfold compile linearize
    rw [hstart]
    dsimp only
    rw [hreach]
    decide +kernel
  refine ⟨hg, rfl, hes, hcompile, ?_⟩
  obtain ⟨h, before, after, ha, hbefore, hafter, hs, -, hc, hr⟩ := attach_inert hg rfl hes
  have hslots : (g.attach memo es).toOption.map nodes = some ([.new ⟨"note"⟩ 0
      (.unknown "textBlock" .null)] ++ memo :: [.new ⟨"in"⟩ 0 (.input ⟨4, 4⟩),
      .new ⟨"gap"⟩ 0 (.unknown "textBlock" .null), .new ⟨"out"⟩ 1 (.output ⟨3, 2⟩)]) := by
    decide +kernel
  rw [ha] at hslots
  -- the block is in the slot that was vacated, and nowhere else
  have hnew : memo ∉ before := by
    have hmemo : memo ∉ before ++ after := hbefore ▸ (by decide : memo ∉ g.nodes)
    exact fun hm => hmemo (List.mem_append_left _ hm)
  obtain ⟨rfl, rfl⟩ := append_mark_inj hnew (by decide)
    (hafter.symm.trans (Option.some.inj hslots))
  refine ⟨h, ha, hs.trans hstart, ?_, ?_⟩
  · rw [(hc {} {}).1, hcompile]
    rfl
  · rw [(hr {}).2.1]
    decide +kernel

end Graph

end LayerGraph
