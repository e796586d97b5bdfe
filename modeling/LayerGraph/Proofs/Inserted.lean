import LayerGraph.Proofs.Arrivals
import LayerGraph.Proofs.Lists

namespace LayerGraph

theorem toNat_max (a b : UInt32) : (max a b).toNat = max a.toNat b.toNat := by
  change (if a ≤ b then b else a).toNat = max a.toNat b.toNat
  split
  · rename_i h
    rw [max_eq_right (UInt32.le_iff_toNat_le.mp h)]
  · rename_i h
    rw [max_eq_left (UInt32.le_iff_toNat_le.mp (UInt32.le_of_lt (UInt32.not_le.mp h)))]

namespace Graph

variable {g h : Graph} {k : Kind} {f : Family} {id : NodeId} {m n : Node} {i : UInt32}
  {c : ShapeConfig}

theorem le_nextSequenceIndex (hm : m ∈ g.members f) :
    saturate (m.sequenceIndex.toNat + 1) ≤ g.nextSequenceIndex f := by
  apply le_foldl_max
  · intro a b
    rw [UInt32.le_iff_toNat_le, toNat_max]
    exact le_max_left _ _
  · intro a b
    rw [UInt32.le_iff_toNat_le, toNat_max]
    exact le_max_right _ _
  · exact .inr (List.mem_map_of_mem hm)

/-- A family ends below the next sequence index, unless there is none behind it. -/
theorem lt_nextSequenceIndex (hm : m ∈ g.members f) :
    m.sequenceIndex < g.nextSequenceIndex f ∨ g.nextSequenceIndex f = 4294967295 := by
  have hnext := le_nextSequenceIndex hm
  rw [UInt32.le_iff_toNat_le, toNat_saturate] at hnext
  rw [UInt32.lt_iff_toNat_lt, ← UInt32.toNat_inj]
  have hlast : (4294967295 : UInt32).toNat = 4294967295 := rfl
  have := (g.nextSequenceIndex f).toNat_lt
  omega

/-- What is raised is above where raising starts, unless it is the last number that there is. -/
theorem raised_le_iff (hm : m.family? = some f) :
    (raised f i m).sequenceIndex ≤ i ↔ m.sequenceIndex < i ∨ i = 4294967295 := by
  unfold raised
  simp only [hm, true_and]
  split
  · rename_i hi
    rw [UInt32.le_iff_toNat_le] at hi
    rw [UInt32.le_iff_toNat_le, UInt32.lt_iff_toNat_lt, toNat_saturate, ← UInt32.toNat_inj]
    have := i.toNat_lt
    have := m.sequenceIndex.toNat_lt
    have hmax : (4294967295 : UInt32).toNat = 4294967295 := rfl
    omega
  · rename_i hi
    have hlt := UInt32.not_le.mp hi
    exact iff_of_true (UInt32.le_of_lt hlt) (.inl hlt)

/-- A node as it is pushed back when a block of the kind comes in. -/
def pushed (g : Graph) : Kind → Node → Node
  | .input => raised .neural 0
  | .hidden => raised .neural g.hiddenIndex
  | _ => fun n => n

theorem roomFor_eq_mapNodes (g : Graph) (k : Kind) : g.roomFor k = g.mapNodes (g.pushed k) := by
  have hself : g = g.mapNodes fun n => n := by simp [mapNodes]
  cases k with
  | input | hidden => rfl
  | _ => exact hself

theorem pushed_eq (g : Graph) (k : Kind) (n : Node) :
    ∃ i, g.pushed k n = { n with sequenceIndex := i } := by
  have hraised : ∀ f i, ∃ j, raised f i n = { n with sequenceIndex := j } := by
    intro f i
    unfold raised
    split
    · exact ⟨_, rfl⟩
    · exact ⟨n.sequenceIndex, rfl⟩
  cases k with
  | input | hidden => exact hraised _ _
  | _ => exact ⟨n.sequenceIndex, rfl⟩

theorem pushed_id (g : Graph) (k : Kind) (n : Node) : (g.pushed k n).id = n.id := by
  obtain ⟨i, hi⟩ := pushed_eq g k n
  rw [hi]

theorem wellFormed_inserted (hg : WellFormed g) (hnew : g.contains id = false) (c : ShapeConfig) :
    WellFormed (g.inserted k id c) :=
  wellFormed_add (wellFormed_roomFor hg k).1 (add_newNode hnew c)

theorem nodes_inserted_perm (hg : WellFormed g) (hnew : g.contains id = false) (c : ShapeConfig) :
    (g.inserted k id c).nodes.Perm (g.newNode k id c :: g.nodes.map (g.pushed k)) := by
  have hperm := nodes_add_perm (wellFormed_roomFor hg k).1 (add_newNode (k := k) hnew c)
  rwa [roomFor_eq_mapNodes, nodes_mapNodes] at hperm

theorem edges_inserted (g : Graph) (k : Kind) (id : NodeId) (c : ShapeConfig) :
    (g.inserted k id c).edges = g.edges := by
  unfold inserted
  rw [edges_file, edges_place, roomFor_eq_mapNodes]
  rfl

/-- The members of a family that a new block of the kind goes behind. -/
def ahead (g : Graph) (k : Kind) (f : Family) : List Node :=
  (g.members f).takeWhile fun m => (g.pushed k m).sequenceIndex ≤ g.insertionIndex k

/-- The members of a family that a new block of the kind goes before. -/
def behind (g : Graph) (k : Kind) (f : Family) : List Node :=
  (g.members f).dropWhile fun m => (g.pushed k m).sequenceIndex ≤ g.insertionIndex k

theorem family?_newNode (g : Graph) (k : Kind) (id : NodeId) (c : ShapeConfig) :
    (g.newNode k id c).family? = k.family := by
  change (g.seeded c k).family? = k.family
  unfold Block.family?
  rw [Block.kind?_seeded]
  rfl

theorem ahead_append_behind (g : Graph) (k : Kind) (f : Family) :
    g.ahead k f ++ g.behind k f = g.members f := List.takeWhile_append_dropWhile

theorem mem_members_of_mem_ahead (hm : m ∈ g.ahead k f) : m ∈ g.members f :=
  g.ahead_append_behind k f ▸ List.mem_append_left _ hm

theorem mem_members_of_mem_behind (hm : m ∈ g.behind k f) : m ∈ g.members f :=
  g.ahead_append_behind k f ▸ List.mem_append_right _ hm

theorem pushed_le_of_mem_ahead (hm : m ∈ g.ahead k f) :
    (g.pushed k m).sequenceIndex ≤ g.insertionIndex k := by
  simpa using List.mem_takeWhile_imp hm

theorem lt_pushed_of_mem_behind (hg : WellFormed g) (hm : m ∈ g.behind k f) :
    g.insertionIndex k < (g.pushed k m).sequenceIndex := by
  have hsorted := (wellFormed_roomFor hg k).1.sorted f
  rw [roomFor_eq_mapNodes, members_mapNodes (pushed_id g k)] at hsorted
  apply lt_of_mem_dropWhile hsorted
  rw [List.dropWhile_map]
  exact List.mem_map_of_mem hm

/-- The new block is filed between the two parts of its family. -/
theorem members_inserted (hg : WellFormed g) (hnew : g.contains id = false) (c : ShapeConfig)
    (f : Family) : (g.inserted k id c).members f =
      if k.family = some f then
        (g.ahead k f).map (g.pushed k) ++ g.newNode k id c :: (g.behind k f).map (g.pushed k)
      else (g.members f).map (g.pushed k) := by
  have hroom := (wellFormed_roomFor hg k).1
  have hout : (g.roomFor k).contains (g.newNode k id c).id = false := by
    rw [contains_roomFor]
    exact hnew
  have hplaced := Coherent.place hroom hout
  have hnode : ((g.roomFor k).place (g.newNode k id c)).node? id = some (g.newNode k id c) :=
    (node?_eq_some_iff hplaced.ids_nodup).mpr
      ⟨(nodes_place_perm hroom _).mem_iff.mpr List.mem_cons_self, rfl⟩
  have hmembers : ∀ l, ((g.roomFor k).place (g.newNode k id c)).members l =
      (g.members l).map (g.pushed k) := by
    intro l
    rw [members_place hroom hout, roomFor_eq_mapNodes, members_mapNodes (pushed_id g k)]
  have hfamily := family?_newNode g k id c
  unfold inserted
  cases hk : k.family with
  | none => rw [file_of_family?_eq_none (hfamily.trans hk), hmembers, if_neg nofun]
  | some l =>
    rw [members_file hnode (hfamily.trans hk) fun _ h => hplaced.contains_of_mem_family h]
    by_cases hl : f = l
    · subst hl
      rw [if_pos rfl, if_pos rfl, hmembers, List.takeWhile_map, List.dropWhile_map]
      rfl
    · rw [if_neg hl, if_neg fun h => hl (Option.some.inj h).symm, hmembers]

theorem family_inserted (hg : WellFormed g) (hnew : g.contains id = false) (c : ShapeConfig)
    (f : Family) : (g.inserted k id c).family f =
      if k.family = some f then
        (g.ahead k f).map (·.id) ++ id :: (g.behind k f).map (·.id)
      else g.family f := by
  have hids : ∀ ms : List Node, (ms.map (g.pushed k)).map (·.id) = ms.map (·.id) := by
    intro ms
    rw [List.map_map]
    exact List.map_congr_left fun m _ => pushed_id g k m
  rw [← (wellFormed_inserted hg hnew c).map_id_members f, members_inserted hg hnew]
  split
  · rw [List.map_append, List.map_cons, hids, hids]
    rfl
  · rw [hids, hg.map_id_members]

/--
Where the new block stands among the members of its family, `before` and `after`. A hidden block
comes before the first output block and all that share its sequence index, unless nothing can be
raised above that.
-/
def Lands (g : Graph) (before after : List Node) : Kind → Prop
  | .input => before = []
  | .hidden =>
    match (g.members .neural).find? (·.kind? = some .output) with
    | some o =>
      if o.sequenceIndex = 4294967295 then after = []
      else o ∈ after ∧ (∀ m ∈ before, m.sequenceIndex < o.sequenceIndex) ∧
        ∀ m ∈ after, o.sequenceIndex ≤ m.sequenceIndex
    | none => after = []
  | _ => after = []

theorem behind_eq_nil_iff : g.behind k f = [] ↔
    ∀ m ∈ g.members f, (g.pushed k m).sequenceIndex ≤ g.insertionIndex k := by
  simp [behind, List.dropWhile_eq_nil_iff]

theorem behind_eq_nil_of_next (hi : g.insertionIndex k = g.nextSequenceIndex f)
    (hpushed : g.pushed k = fun n => n) : g.behind k f = [] := by
  rw [behind_eq_nil_iff, hi, hpushed]
  intro m hm
  exact UInt32.le_trans (le_saturate_succ m.sequenceIndex) (le_nextSequenceIndex hm)

theorem lands_hidden (hg : WellFormed g) :
    g.Lands (g.ahead .hidden .neural) (g.behind .hidden .neural) .hidden := by
  have hmember : ∀ m ∈ g.members .neural,
      (g.pushed .hidden m).sequenceIndex ≤ g.insertionIndex .hidden ↔
        m.sequenceIndex < g.hiddenIndex ∨ g.hiddenIndex = 4294967295 :=
    fun m hm => raised_le_iff (hg.mem_members.mp hm).2.1
  unfold Lands
  dsimp only
  cases ho : (g.members .neural).find? (·.kind? = some .output) with
  | none =>
    have hindex : g.hiddenIndex = g.nextSequenceIndex .neural := by simp only [hiddenIndex, ho]
    dsimp only
    rw [behind_eq_nil_iff]
    intro m hm
    rw [hmember m hm, hindex]
    exact lt_nextSequenceIndex hm
  | some o =>
    have hindex : g.hiddenIndex = o.sequenceIndex := by simp only [hiddenIndex, ho]
    rw [hindex] at hmember
    dsimp only
    split
    · rename_i hlast
      rw [behind_eq_nil_iff]
      exact fun m hm => (hmember m hm).mpr (.inr hlast)
    · rename_i hlast
      have hahead : ∀ m ∈ g.ahead .hidden .neural, m.sequenceIndex < o.sequenceIndex := by
        intro m hm
        exact ((hmember m (mem_members_of_mem_ahead hm)).mp
          (pushed_le_of_mem_ahead hm)).resolve_right hlast
      have hbehind : ∀ m ∈ g.behind .hidden .neural, o.sequenceIndex ≤ m.sequenceIndex := by
        intro m hm
        have hpushed := lt_pushed_of_mem_behind hg hm
        rw [← UInt32.not_le, hmember m (mem_members_of_mem_behind hm), not_or] at hpushed
        exact UInt32.not_lt.mp hpushed.1
      have hmem := List.mem_of_find?_eq_some ho
      rw [← g.ahead_append_behind .hidden .neural] at hmem
      refine ⟨(List.mem_append.mp hmem).resolve_left ?_, hahead, hbehind⟩
      intro hin
      exact UInt32.lt_irrefl _ (hahead o hin)

theorem lands (hg : WellFormed g) (hk : k.family = some f) :
    g.Lands (g.ahead k f) (g.behind k f) k := by
  cases k with
  | input =>
    obtain rfl := Option.some.inj hk
    apply List.eq_nil_iff_forall_not_mem.mpr
    intro m hm
    have hneural := (hg.mem_members.mp (mem_members_of_mem_ahead hm)).2.1
    rcases (raised_le_iff hneural).mp (pushed_le_of_mem_ahead hm) with h | h
    · exact UInt32.not_lt_zero h
    · exact absurd h (by decide)
  | hidden =>
    obtain rfl := Option.some.inj hk
    exact lands_hidden hg
  | output | convolutional | pooling =>
    obtain rfl := Option.some.inj hk
    exact behind_eq_nil_of_next rfl rfl
  | classifier | training | start => cases hk

/--
A new block with an id that is free goes to its place, and the others stay in order. They keep their
labels, their positions and all parameters that are not sizes following from other blocks.
-/
theorem insert_lands (hg : g.Reachable) {id? : Option NodeId} (hid : id?.getD (g.freshId k) = id)
    (hnew : g.contains id = false) (c : ShapeConfig) :
    ∃ h, g.insert k id? c = .ok (id, h) ∧ (∃ n, h.node? id = some n ∧ n.kind? = some k) ∧
      (∀ f, k.family = some f → ∃ before after, g.members f = before ++ after ∧
        h.family f = before.map (·.id) ++ id :: after.map (·.id) ∧ g.Lands before after k) ∧
      (∀ f, k.family ≠ some f → h.family f = g.family f) ∧
      h.edges = g.edges ∧
      ∀ n ∈ g.nodes, ∃ m, h.node? n.id = some m ∧ m.label = n.label ∧ m.position = n.position ∧
        m.block.blank = n.block.blank ∧
        ∀ p, p ≠ .sizeIn → p ≠ .channels → m.block.read? p = n.block.read? p := by
  have hw := hg.wellFormed
  have hinserted := wellFormed_inserted (k := k) hw hnew c
  have hblank := (agreesBut_reconcile hinserted c).blank
  have hperm := nodes_inserted_perm (k := k) hw hnew c
  have hnode : ∀ n ∈ (g.inserted k id c).nodes, ∃ m,
      ((g.inserted k id c).reconcile c).1.node? n.id = some m ∧ m.blank = n.blank := fun n hn =>
    exists_node?_of_blank_eq hblank ((node?_eq_some_iff hinserted.ids_nodup).mpr ⟨hn, rfl⟩)
  refine ⟨_, insert_eq_ok_iff.mpr ⟨hid, hnew, rfl⟩, ?_, ?_, ?_, ?_, ?_⟩
  · obtain ⟨m, hm, hmn⟩ := hnode _ (hperm.mem_iff.mpr List.mem_cons_self)
    refine ⟨m, hm, ?_⟩
    have hkind : m.blank.kind? = (g.newNode k id c).blank.kind? := congrArg Node.kind? hmn
    rw [Node.kind?_blank, Node.kind?_blank] at hkind
    exact hkind.trans (Block.kind?_seeded g c k)
  · intro f hk
    refine ⟨g.ahead k f, g.behind k f, (g.ahead_append_behind k f).symm, ?_, lands hw hk⟩
    rw [family_of_blank_eq hblank, family_inserted hw hnew, if_pos hk]
  · intro f hk
    rw [family_of_blank_eq hblank, family_inserted hw hnew, if_neg hk]
  · exact (congrArg Graph.edges hblank).trans (edges_inserted g k id c)
  · intro n hn
    obtain ⟨m, hm, hmn⟩ := hnode (g.pushed k n)
      (hperm.mem_iff.mpr (List.mem_cons_of_mem _ (List.mem_map_of_mem hn)))
    rw [pushed_id] at hm
    obtain ⟨i, hi⟩ := pushed_eq g k n
    rw [hi] at hmn
    have hlabel : m.label = n.label := congrArg (·.label) hmn
    have hposition : m.position = n.position := congrArg (·.position) hmn
    have hblock : m.block.blank = n.block.blank := congrArg (·.block) hmn
    refine ⟨m, hm, hlabel, hposition, hblock, ?_⟩
    intro p hin hchannels
    have hp : ∀ s : Slot, s.param ≠ p := by
      rintro (_ | _)
      · exact hin.symm
      · exact hchannels.symm
    rw [← Block.read?_blank hp, hblock, Block.read?_blank hp]

/-- An output block that nothing can be raised above. -/
def lastOutput : List GraphOperation := [.add (.new ⟨"out"⟩ 4294967295 (.output ⟨8, 4⟩))]

/-- A hidden block comes behind it. -/
theorem insert_lands_lastOutput :
    let g := lastOutput.foldl GraphOperation.apply empty
    g.Reachable ∧ g.contains ⟨"h"⟩ = false ∧
    ∃ h, g.insert .hidden (some ⟨"h"⟩) {} = .ok (⟨"h"⟩, h) ∧ h.neural = [⟨"out"⟩, ⟨"h"⟩] := by
  intro g
  have hg : g.Reachable := ⟨lastOutput, rfl⟩
  have hnew : g.contains ⟨"h"⟩ = false := by decide
  have hfirst : (g.members .neural).find? (·.kind? = some .output) =
      some (.new ⟨"out"⟩ 4294967295 (.output ⟨8, 4⟩)) := by decide
  have hneural : (g.members .neural).map (·.id) = [⟨"out"⟩] := by decide
  have hid : (some (⟨"h"⟩ : NodeId)).getD (g.freshId .hidden) = ⟨"h"⟩ := rfl
  obtain ⟨h, hi, -, hlands, -⟩ := insert_lands hg hid hnew {}
  obtain ⟨before, after, hsplit, hfamily, hafter⟩ := hlands .neural rfl
  unfold Lands at hafter
  rw [hfirst] at hafter
  obtain rfl : after = [] := hafter
  refine ⟨hg, hnew, h, hi, ?_⟩
  rw [hsplit, List.append_nil] at hneural
  rw [hneural] at hfamily
  exact hfamily

end Graph
end LayerGraph
