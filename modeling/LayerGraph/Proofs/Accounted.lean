import LayerGraph.Proofs.Candidates
import LayerGraph.Proofs.Trainable

namespace LayerGraph

theorem Kind.keyStem_inj {k k' : Kind} (h : k.keyStem = k'.keyStem) : k = k' := by
  cases k <;> cases k' <;> first | rfl | exact absurd h (by decide)

theorem Kind.isDigit_of_mem_keyStem {k : Kind} {a : Char} (ha : a ∈ k.keyStem.toList) :
    a.isDigit = false := by
  have hall : k.keyStem.toList.all (!·.isDigit) = true := by cases k <;> decide
  simpa using List.all_eq_true.mp hall a ha

theorem Kind.toList_layerKey (k : Kind) (i : Nat) :
    (k.layerKey i).toList = k.keyStem.toList ++ Nat.toDigits 10 i := by
  have hkey : k.layerKey i = k.keyStem ++ toString i := rfl
  rw [hkey, String.toList_append, Nat.toString_eq_repr, Nat.toList_repr]

/-- The stem ends where the digits begin. -/
theorem Kind.takeWhile_layerKey (k : Kind) (i : Nat) :
    (k.layerKey i).toList.takeWhile (!·.isDigit) = k.keyStem.toList := by
  rw [toList_layerKey, List.takeWhile_append_of_pos fun a ha => by
    simp [isDigit_of_mem_keyStem ha]]
  obtain ⟨d, ds, hds⟩ := List.exists_cons_of_ne_nil (Nat.toDigits_ne_nil (n := i) (b := 10))
  have hd : d.isDigit = true :=
    Nat.isDigit_of_mem_toDigits (by decide) (by decide) (hds ▸ List.mem_cons_self)
  rw [hds, List.takeWhile_cons_of_neg (by simp [hd]), List.append_nil]

/-- A key tells the kind and the number. -/
theorem Kind.layerKey_inj {k k' : Kind} {i i' : Nat} (h : k.layerKey i = k'.layerKey i') :
    k = k' ∧ i = i' := by
  have hchars := congrArg String.toList h
  obtain rfl : k = k' := by
    apply keyStem_inj
    apply String.toList_injective
    rw [← takeWhile_layerKey k i, hchars, takeWhile_layerKey]
  rw [toList_layerKey, toList_layerKey] at hchars
  have hdigits := congrArg (Nat.ofDigitChars 10 · 0) (List.append_cancel_left hchars)
  exact ⟨rfl, by simpa using hdigits⟩

/-- The shape of the data that come into a model. -/
def ShapeConfig.flow (c : ShapeConfig) : Flow := ⟨c.inputChannels, c.initialSpatialSize⟩

/-- Gives a layer a place of its own at the end, unless there is one under the key. -/
def putLayer (key : String) (layer : Layer) : List (String × Layer) → List (String × Layer)
  | [] => [(key, layer)]
  | (k, l) :: ms => if k = key then (k, layer) :: ms else (k, l) :: putLayer key layer ms

/-- Emits layers into a map, with a counter for each kind. -/
def emitKeyed (classes : UInt32) : (counts : Kind → Nat) → (out : List (String × Layer)) → Flow →
    List Node → Except CompileError (List (String × Layer))
  | _, out, _, [] => .ok out
  | counts, out, flow, n :: ns =>
    match n.block.emit classes flow with
    | .error fault => .error (.invalidLayer n.id fault)
    | .ok none => emitKeyed classes counts out flow ns
    | .ok (some (k, layer, flow)) =>
      let out := putLayer (k.layerKey (counts k + 1)) layer out
      if flow.channels = 0 then .error (.invalidLayer n.id .noFeatures)
      else emitKeyed classes (Function.update counts k (counts k + 1)) out flow ns

section

variable {classes : UInt32} {before : List Kind} {flow : Flow} {n : Node} {ns : List Node}
  {layers out : List (String × Layer)}

theorem putLayer_of_not_mem {key : String} (hkey : key ∉ out.map (·.1)) (layer : Layer) :
    putLayer key layer out = out ++ [(key, layer)] := by
  induction out with
  | nil => rfl
  | cons m out ih =>
    rw [List.map_cons, List.mem_cons, not_or] at hkey
    obtain ⟨hne, hrest⟩ := hkey
    rw [putLayer, if_neg (Ne.symm hne), ih hrest, List.cons_append]

theorem foldl_putLayer (h : ((out ++ layers).map (·.1)).Nodup) :
    layers.foldl (fun out m => putLayer m.1 m.2 out) out = out ++ layers := by
  induction layers generalizing out with
  | nil => simp
  | cons m layers ih =>
    have hout : m.1 ∉ out.map (·.1) := by
      rw [List.map_append, List.map_cons, List.nodup_middle, List.nodup_cons] at h
      exact fun hm => h.1 (List.mem_append_left _ hm)
    rw [List.foldl_cons, putLayer_of_not_mem hout, ih (by simpa using h), List.append_assoc,
      List.singleton_append]

theorem emitKeyed_eq (classes : UInt32) (before : List Kind) (out : List (String × Layer))
    (flow : Flow) (ns : List Node) :
    emitKeyed classes (before.count ·) out flow ns = (emitLayers classes before flow ns).map
      fun layers => layers.foldl (fun out m => putLayer m.1 m.2 out) out := by
  induction ns generalizing before out flow with
  | nil => rfl
  | cons n ns ih =>
    rw [emitKeyed, emitLayers]
    cases n.block.emit classes flow with
    | error fault => rfl
    | ok emitted =>
      cases emitted with
      | none => exact ih before out flow
      | some e =>
        obtain ⟨k, layer, flow'⟩ := e
        dsimp only
        split
        · rfl
        · have hcounts : Function.update (before.count ·) k (before.count k + 1) =
              ((k :: before).count ·) := by
            funext k'
            rw [Function.update_apply, List.count_cons]
            by_cases hk : k' = k
            · simp [hk]
            · simp [hk, Ne.symm hk]
          rw [hcounts, ih]
          cases emitLayers classes (k :: before) flow' ns <;> rfl

/-- Later keys have higher numbers, so that no two are the same. -/
theorem keys_emitLayers (h : emitLayers classes before flow ns = .ok layers) :
    (∀ key ∈ layers.map (·.1), ∃ k i, key = k.layerKey i ∧ before.count k < i) ∧
      (layers.map (·.1)).Nodup := by
  induction ns generalizing before flow layers with
  | nil =>
    obtain rfl : [] = layers := Except.ok.inj h
    simp
  | cons n ns ih =>
    rcases emitLayers_cons_eq_ok h with ⟨-, h⟩ | ⟨k, layer, flow', rest, -, -, hrest, rfl⟩
    · exact ih h
    · obtain ⟨hkeys, hnodup⟩ := ih hrest
      rw [List.map_cons, List.nodup_cons, List.forall_mem_cons]
      refine ⟨⟨⟨k, _, rfl, Nat.lt_succ_self _⟩, ?_⟩, ?_, hnodup⟩
      · intro key hkey
        obtain ⟨k', i, rfl, hi⟩ := hkeys key hkey
        exact ⟨k', i, rfl, ((List.sublist_cons_self k before).count_le k').trans_lt hi⟩
      · intro hmem
        obtain ⟨k', i, hkey, hi⟩ := hkeys _ hmem
        obtain ⟨rfl, rfl⟩ := Kind.layerKey_inj hkey
        simp at hi

theorem emit_isSome {b : Block} {emitted : Option (Kind × Layer × Flow)}
    (h : b.emit classes flow = .ok emitted) : emitted.isSome = b.isLayer := by
  cases b with
  | pooling p =>
    unfold Block.emit at h
    dsimp only at h
    split at h
    · cases h
    split at h
    · cases h
    cases h
    rfl
  | _ =>
    cases h
    rfl

theorem length_emitLayers (h : emitLayers classes before flow ns = .ok layers) :
    layers.length = ns.countP (·.isLayer) := by
  induction ns generalizing before flow layers with
  | nil =>
    obtain rfl : [] = layers := Except.ok.inj h
    rfl
  | cons n ns ih =>
    rcases emitLayers_cons_eq_ok h with ⟨hemit, h⟩ | ⟨k, layer, flow', rest, hemit, -, hrest, rfl⟩
    · have hn : n.isLayer = false := (emit_isSome hemit).symm
      rw [ih h, List.countP_cons_of_neg (by simp [hn])]
    · have hn : n.isLayer = true := (emit_isSome hemit).symm
      rw [List.length_cons, ih hrest, List.countP_cons_of_pos hn]

end

namespace Graph

variable {g : Graph} {start id : NodeId} {l : Linearization}

theorem nodup_reach (hg : WellFormed g) (hs : start ∈ g.ids) : (g.reach start).Nodup :=
  (depthFirst_reach hg hs).nodup List.nodup_nil

/-- The walk comes to what connections lead to from its start. -/
theorem mem_reach_iff (hg : WellFormed g) (hs : start ∈ g.ids) :
    id ∈ g.reach start ↔ Relation.ReflTransGen g.Connects start id := by
  have hnext : ∀ id ∈ g.ids, g.successors id ⊆ g.ids := fun id _ => successors_subset hg id
  have hstart : [start] ⊆ g.ids := List.cons_subset.mpr ⟨hs, List.nil_subset _⟩
  have hconnects : (fun a b => b ∈ g.successors a) = g.Connects := by
    funext a b
    exact propext mem_successors_iff
  have hwalk := mem_walk_iff hg.ids_nodup hnext hstart (a := id)
  rw [hconnects] at hwalk
  exact hwalk.trans (by simp)

theorem mem_layers_iff (hg : WellFormed g) (hl : g.linearize = .ok l) {n : Node}
    (hn : n ∈ g.nodes) :
    n.id ∈ l.layers ↔ n.isLayer = true ∧ Relation.ReflTransGen g.Connects l.start n.id := by
  obtain ⟨hs, hlayers, -, -⟩ := linearize_eq_ok hl
  rw [hlayers, List.mem_filter, (node?_eq_some_iff hg.ids_nodup).mpr ⟨hn, rfl⟩,
    mem_reach_iff hg (mem_ids_of_findStart hs), and_comm]
  rfl

/-- Each layer is walked to or unreachable. -/
theorem layers_append_unreachable_perm (hg : WellFormed g) (hl : g.linearize = .ok l) :
    (l.layers ++ l.unreachable).Perm ((g.nodes.filter (·.isLayer)).map (·.id)) := by
  obtain ⟨hs, hlayers, -, hunreachable⟩ := linearize_eq_ok hl
  have hsplit := (List.filter_append_perm (fun n => (g.reach l.start).contains n.id)
    (g.nodes.filter (·.isLayer))).map (·.id)
  have hnodup : ∀ p : Node → Bool, ((g.nodes.filter p).map (·.id)).Nodup := fun p =>
    hg.ids_nodup.sublist (List.filter_sublist.map _)
  -- the walk has the layers in its own order
  have hwalked : l.layers.Perm ((g.nodes.filter fun n =>
      (g.reach l.start).contains n.id && n.isLayer).map (·.id)) := by
    rw [hlayers, List.perm_ext_iff_of_nodup
      ((nodup_reach hg (mem_ids_of_findStart hs)).filter _) (hnodup _)]
    intro id
    simp only [List.mem_filter, List.mem_map, Option.any_eq_true, node?_eq_some_iff hg.ids_nodup,
      Bool.and_eq_true, List.contains_iff_mem]
    constructor
    · rintro ⟨hid, n, ⟨hn, rfl⟩, hk⟩
      exact ⟨n, ⟨hn, hid, hk⟩, rfl⟩
    · rintro ⟨n, ⟨hn, hid, hk⟩, rfl⟩
      exact ⟨hid, n, ⟨hn, rfl⟩, hk⟩
  rw [List.map_append, List.filter_filter, List.filter_filter] at hsplit
  refine (hwalked.append ?_).trans hsplit
  rw [hunreachable]
  simp only [Bool.and_comm]
  exact List.Perm.refl _

theorem skipped_eq (hl : g.linearize = .ok l) :
    l.skipped = (g.nodes.filter (·.isPlaceholder)).map fun n => ⟨n.id, n.block.kindName⟩ := by
  rw [(linearize_eq_ok hl).2.2.1, ← List.filterMap_eq_map, List.filterMap_filter]
  rfl

theorem countP_layers (hl : g.linearize = .ok l) :
    (l.layers.filterMap g.node?).countP (·.isLayer) = l.layers.length := by
  have hlayer := fun id (hid : id ∈ l.layers) => exists_node?_of_mem_layers hl hid
  generalize l.layers = ids at hlayer
  induction ids with
  | nil => rfl
  | cons id ids ih =>
    obtain ⟨⟨n, hn, hk⟩, hlayer⟩ := List.forall_mem_cons.mp hlayer
    rw [List.filterMap_cons_some hn, List.countP_cons_of_pos hk, ih hlayer, List.length_cons]

theorem compile_eq_ok {fallback : Training} {options : CompileOptions} {r : Compilation}
    (h : g.compile fallback options = .ok r) :
    ∃ l, g.linearize = .ok l ∧ r.unreachable = l.unreachable ∧
      emitLayers (g.compiledShape options.shape).outputClasses []
        (g.compiledShape options.shape).flow (l.layers.filterMap g.node?) =
          .ok r.model.layers := by
  obtain ⟨l, hl, h⟩ := bind_eq_ok_iff.mp h
  obtain ⟨m, hm, h⟩ := bind_eq_ok_iff.mp h
  obtain rfl := pure_eq_ok_iff.mp h
  obtain ⟨-, -, hemit, -⟩ := compileLayers_eq_ok hm
  exact ⟨l, hl, rfl, hemit⟩

/--
No layer of a graph is lost, and none is there twice. Each is in the order or unreachable, in the
order just when connections lead to it from the start; each placeholder is skipped. What is in the
order is in the model under a key of its own: with the unreachable ones, the model counts every
layer of the graph.
-/
theorem layers_accounted (hg : g.Reachable) :
    (∀ l, g.linearize = .ok l → g.findStart = .ok l.start ∧
      (l.layers ++ l.unreachable).Nodup ∧
      (∀ id, id ∈ l.layers ++ l.unreachable ↔ ∃ n ∈ g.nodes, n.isLayer = true ∧ n.id = id) ∧
      (∀ n ∈ g.nodes, n.isLayer = true →
        (n.id ∈ l.layers ↔ Relation.ReflTransGen g.Connects l.start n.id)) ∧
      (l.skipped.map (·.id)).Nodup ∧
      ∀ s, s ∈ l.skipped ↔ ∃ n ∈ g.nodes, n.isPlaceholder = true ∧ s = ⟨n.id, n.block.kindName⟩) ∧
    ∀ fallback options r, g.compile fallback options = .ok r → ∃ l, g.linearize = .ok l ∧
      emitKeyed (g.compiledShape options.shape).outputClasses (fun _ => 0) []
        (g.compiledShape options.shape).flow (l.layers.filterMap g.node?) = .ok r.model.layers ∧
      r.model.names.Nodup ∧
      r.model.layers.length + r.unreachable.length = g.nodes.countP (·.isLayer) := by
  have hw := hg.wellFormed
  have hfilter : ∀ p : Node → Bool, ((g.nodes.filter p).map (·.id)).Nodup := fun p =>
    hw.ids_nodup.sublist (List.filter_sublist.map _)
  constructor
  · intro l hl
    have hperm := layers_append_unreachable_perm hw hl
    refine ⟨(linearize_eq_ok hl).1, hperm.nodup_iff.mpr (hfilter _), ?_, ?_, ?_, ?_⟩
    · intro id
      rw [hperm.mem_iff, List.mem_map]
      simp only [List.mem_filter, and_assoc]
    · intro n hn hk
      rw [mem_layers_iff hw hl hn, hk]
      simp
    · rw [skipped_eq hl, List.map_map]
      exact hfilter _
    · intro s
      rw [skipped_eq hl, List.mem_map]
      simp only [List.mem_filter, and_assoc, eq_comm (a := s)]
  · intro fallback options r hr
    obtain ⟨l, hl, hunreachable, hemit⟩ := compile_eq_ok hr
    have hkeys := (keys_emitLayers hemit).2
    refine ⟨l, hl, ?_, hkeys, ?_⟩
    · have hkeyed := emitKeyed_eq (g.compiledShape options.shape).outputClasses [] []
        (g.compiledShape options.shape).flow (l.layers.filterMap g.node?)
      have hout : ((([] : List (String × Layer)) ++ r.model.layers).map (·.1)).Nodup := hkeys
      rw [hemit] at hkeyed
      exact hkeyed.trans (congrArg Except.ok (foldl_putLayer hout))
    · rw [length_emitLayers hemit, countP_layers hl, hunreachable, ← List.length_append,
        (layers_append_unreachable_perm hw hl).length_eq, List.length_map,
        List.countP_eq_length_filter]

/-- Two layers beside the walk, and a placeholder with no connection. -/
def annotated : List GraphOperation :=
  ProjectService.sideTrack ++ [.add (.new ⟨"note"⟩ 0 (.unknown "textBlock" .null))]

theorem layers_accounted_annotated :
    let g := annotated.foldl GraphOperation.apply Graph.empty
    let l : Linearization :=
      ⟨⟨"start"⟩, [⟨"a"⟩, ⟨"p"⟩, ⟨"out"⟩], [⟨⟨"note"⟩, "textBlock"⟩], [⟨"x"⟩, ⟨"y"⟩]⟩
    g.Reachable ∧ g.linearize = .ok l ∧ ¬ Relation.ReflTransGen g.Connects ⟨"start"⟩ ⟨"x"⟩ ∧
    ∃ r, g.compile {} {} = .ok r ∧ r.model.names = ["conv1", "pool1", "fcl_output1"] ∧
      r.model.layers.length + r.unreachable.length = 5 := by
  intro g l
  have hg : g.Reachable := ⟨annotated, rfl⟩
  have hfed : g.fedPlaceholders = [] := by
    unfold fedPlaceholders
    change walk _ g.ids [] = []
    rw [walk]
  have hreach : g.reach ⟨"start"⟩ = [⟨"start"⟩, ⟨"a"⟩, ⟨"p"⟩, ⟨"out"⟩, ⟨"names"⟩] :=
    (walk_eq_visited (n := 7) (by decide) (by decide) (by decide) (by decide)).trans (by decide)
  have hl : g.linearize = .ok l := by
    have hstart : g.findStart = .ok ⟨"start"⟩ := by
      rw [findStart_eq_ok_iff, startCandidates, hfed]
      decide
    unfold linearize
    rw [hstart]
    dsimp only
    rw [hreach]
    decide
  obtain ⟨hlinear, hmodel⟩ := layers_accounted hg
  obtain ⟨-, -, -, hreached, -⟩ := hlinear l hl
  refine ⟨hg, hl, ?_, ?_⟩
  · have hx := hreached (.new ⟨"x"⟩ 1 (.hidden ⟨4, 4, .relu⟩)) (by decide) rfl
    exact fun hpath => absurd (hx.mpr hpath) (by decide)
  · have hnames : (g.compile {} {}).toOption.map (·.model.names) =
        some ["conv1", "pool1", "fcl_output1"] := by
      unfold compile
      rw [hl]
      decide +kernel
    obtain ⟨r, hr, hn⟩ := Option.map_eq_some_iff.mp hnames
    rw [toOption_eq_some_iff] at hr
    obtain ⟨l', -, -, -, hcount⟩ := hmodel {} {} r hr
    exact ⟨r, hr, hn, hcount⟩

end Graph

end LayerGraph
