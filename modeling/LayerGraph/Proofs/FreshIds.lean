import LayerGraph.Proofs.EditInPlace
import LayerGraph.Proofs.Inserted
import LayerGraph.Proofs.WholeDoubles

namespace LayerGraph

section Search

variable {α : Type} {taken : α → Bool} {next : α → α} {a b start : α}

/-- A search without a bound ends at `a`: it goes on as long as things are taken. -/
inductive Search (taken : α → Bool) (next : α → α) (a : α) : (start : α) → Prop
  | here (hfree : taken a = false) : Search taken next a a
  | next {b : α} (htaken : taken b = true) (hrest : Search taken next a (next b)) :
      Search taken next a b

theorem Search.free (hs : Search taken next a start) : taken a = false := by
  induction hs with
  | here hfree => exact hfree
  | next _ _ ih => exact ih

theorem Search.unique (ha : Search taken next a start) (hb : Search taken next b start) :
    a = b := by
  induction ha with
  | here hfree =>
    cases hb with
    | here => rfl
    | next htaken => exact absurd htaken (Bool.not_eq_true _ ▸ hfree)
  | next htaken _ ih =>
    cases hb with
    | here hfree => exact absurd htaken (Bool.not_eq_true _ ▸ hfree)
    | next _ hrest => exact ih hrest

/-- With something free within its limit, the bounded search ends where the other does. -/
theorem search_firstFree {f : Nat → α} {limit : Nat} (hnext : ∀ i < limit, f (i + 1) = next (f i))
    (hfree : ∃ i ≤ limit, taken (f i) = false) :
    Search taken next (firstFree taken next limit (f 0)) (f 0) := by
  induction limit generalizing f with
  | zero =>
    obtain ⟨i, hi, hfree⟩ := hfree
    obtain rfl := Nat.le_zero.mp hi
    exact .here hfree
  | succ limit ih =>
    cases htaken : taken (f 0) with
    | false =>
      rw [firstFree, htaken]
      exact .here htaken
    | true =>
      have hlater : ∃ i ≤ limit, taken (f (i + 1)) = false := by
        obtain ⟨i, hi, hfree⟩ := hfree
        cases i with
        | zero => exact absurd htaken (Bool.not_eq_true _ ▸ hfree)
        | succ i => exact ⟨i, Nat.le_of_succ_le_succ hi, hfree⟩
      have hrest := ih (f := fun i => f (i + 1)) (fun i hi => hnext (i + 1) (by omega)) hlater
      rw [Nat.zero_add, hnext 0 limit.succ_pos] at hrest
      rw [firstFree, htaken]
      exact .next htaken hrest

/-- One more than the list is long, all different, are not all in the list. -/
theorem exists_not_mem {l : List α} {f : Nat → α}
    (hf : ∀ i ≤ l.length, ∀ j ≤ l.length, f i = f j → i = j) : ∃ i ≤ l.length, f i ∉ l := by
  by_contra hall
  push Not at hall
  have hnodup : ((List.range (l.length + 1)).map f).Nodup := by
    apply List.Nodup.map_on _ List.nodup_range
    intro i hi j hj
    exact hf i (by simpa [Nat.lt_succ_iff] using hi) j (by simpa [Nat.lt_succ_iff] using hj)
  have hsub : (List.range (l.length + 1)).map f ⊆ l := by
    intro x hx
    obtain ⟨i, hi, rfl⟩ := List.mem_map.mp hx
    exact hall i (by simpa [Nat.lt_succ_iff] using hi)
  have hlength := hnodup.length_le_of_subset hsub
  simp at hlength

end Search

theorem Kind.numberedId_injective (k : Kind) : Function.Injective k.numberedId := by
  intro i j h
  have htext : k.stem ++ "-" ++ i.repr = k.stem ++ "-" ++ j.repr := by
    simpa [numberedId, toString] using congrArg NodeId.text h
  exact Nat.repr_inj.mp ((String.append_right_inj _).mp htext)

namespace Graph

variable {g h : Graph} {k : Kind} {c : ShapeConfig} {id : NodeId} {y : Float} {i m n : Nat}

/-- The search for a number, which has no bound of its own. -/
abbrev NumberSearch (g : Graph) (k : Kind) (m start : Nat) : Prop :=
  Search (g.idIsTaken k) (· + 1) m start

/-- The search for a row, which has none either. -/
abbrev RowSearch (g : Graph) (y start : Float) : Prop := Search g.rowIsTaken (· + rowGap) y start

/-- What the search finds is the first free number. -/
theorem NumberSearch.isLeast (hs : g.NumberSearch k m n) :
    IsLeast {i | n ≤ i ∧ g.idIsTaken k i = false} m := by
  induction hs with
  | here hfree => exact ⟨⟨le_rfl, hfree⟩, fun i hi => hi.1⟩
  | @next n htaken _ ih =>
    obtain ⟨⟨hle, hfree⟩, hleast⟩ := ih
    refine ⟨⟨Nat.le_of_succ_le hle, hfree⟩, ?_⟩
    rintro i ⟨hi, hifree⟩
    have hne : n ≠ i := by
      rintro rfl
      rw [htaken] at hifree
      cases hifree
    exact hleast ⟨Nat.lt_of_le_of_ne hi hne, hifree⟩

/-- Of one number more than there are blocks, starting anywhere, not all are taken. -/
theorem exists_free_number (g : Graph) (k : Kind) (n : Nat) :
    ∃ i ≤ g.nodes.length, g.idIsTaken k (n + i) = false := by
  have hdistinct : ∀ i j, k.numberedId (n + i) = k.numberedId (n + j) → i = j :=
    fun i j h => Nat.add_left_cancel (k.numberedId_injective h)
  obtain ⟨i, hi, hnot⟩ := exists_not_mem (l := g.nodes.map (·.id))
    (f := fun i => k.numberedId (n + i)) fun i _ j _ => hdistinct i j
  refine ⟨i, by simpa using hi, ?_⟩
  rw [idIsTaken, ← Bool.not_eq_true, contains_iff]
  rintro ⟨m, hm, hmi⟩
  exact hnot (List.mem_map.mpr ⟨m, hm, hmi⟩)

theorem search_freshId (g : Graph) (k : Kind) : ∃ m, g.NumberSearch k m (g.countKind k + 1) ∧
    m ≤ g.countKind k + 1 + g.nodes.length ∧ g.freshId k = k.numberedId m := by
  have hfree := g.exists_free_number k (g.countKind k + 1)
  have hs : g.NumberSearch k _ (g.countKind k + 1) :=
    search_firstFree (f := (g.countKind k + 1 + ·)) (fun _ _ => rfl) hfree
  refine ⟨_, hs, ?_, rfl⟩
  obtain ⟨i, hi, hifree⟩ := hfree
  exact (hs.isLeast.2 ⟨Nat.le_add_right _ i, hifree⟩).trans (Nat.add_le_add_left hi _)

theorem not_contains_freshId (g : Graph) (k : Kind) : g.contains (g.freshId k) = false := by
  obtain ⟨m, hm, -, hid⟩ := g.search_freshId k
  rw [hid]
  exact hm.free

theorem topRow_eq (k : Kind) : ∃ n, 0 < n ∧ n ≤ 300 ∧ topRow k = wholeDouble n := by
  unfold topRow
  split
  · exact ⟨300, by decide, by decide, by decide +kernel⟩
  · exact ⟨100, by decide, by decide, by decide +kernel⟩

theorem rowGap_eq : rowGap = wholeDouble 150 := by decide +kernel

/-- The rows are whole numbers, which the doubles have up to `2 ^ 53`: so many blocks are not in
reach of slots that are numbered with 32 bits. -/
theorem search_placement (hfew : g.nodes.length < 2 ^ 32) (k : Kind) :
    g.RowSearch (g.placement k).y (topRow k) := by
  obtain ⟨top, hpos, htop, hrow⟩ := topRow_eq k
  let f (i : Nat) : Float := wholeDouble (top + 150 * i)
  have hbound : ∀ i ≤ g.nodes.length, top + 150 * i < 2 ^ 53 := by
    intro i hi
    omega
  have hnext : ∀ i < g.nodes.length, f (i + 1) = f i + rowGap := by
    intro i hi
    have hlt := hbound (i + 1) hi
    rw [rowGap_eq, wholeDouble_add (by omega) (by decide) (by omega)]
    rfl
  have hdistinct : ∀ i ≤ g.nodes.length, ∀ j ≤ g.nodes.length, f i = f j → i = j := by
    intro i hi j hj h
    have heq := wholeDouble_inj (by omega) (hbound i hi) (by omega) (hbound j hj) h
    omega
  have hrows : (g.positions.map (·.y)).length ≤ g.nodes.length := by
    rw [List.length_map]
    exact List.length_filterMap_le _ _
  obtain ⟨i, hi, hnot⟩ := exists_not_mem (l := g.positions.map (·.y)) (f := f)
    fun i hi j hj => hdistinct i (hi.trans hrows) j (hj.trans hrows)
  have hfree : g.rowIsTaken (f i) = false := by
    rw [← Bool.not_eq_true, rowIsTaken, List.any_eq_true]
    rintro ⟨p, hp, hpy⟩
    have heq := eq_wholeDouble_of_beq (by omega) (hbound i (hi.trans hrows)) hpy
    exact hnot (List.mem_map.mpr ⟨p, hp, heq⟩)
  have hs : g.RowSearch _ (f 0) := search_firstFree hnext ⟨i, hi.trans hrows, hfree⟩
  rw [hrow]
  unfold placement
  rw [hrow]
  exact hs

end Graph

namespace InPlace

/-- Room for the block is made before it is added, in the row that was found. -/
def insertAt (k : Kind) (id : NodeId) (y : Float) (c : ShapeConfig) :
    EStateM GraphError Graph NodeId := do
  let g ← get
  let node := Node.new id (g.insertionIndex k) (g.seeded c k)
  modify (·.roomFor k)
  let x := (← get).freeColumn
  set (← ofExcept ((← get).add { node with position := some ⟨x, y⟩ }))
  modify fun g => (g.reconcile c).1
  return id

/-- The end of an insertion whose searches have no bounds. An id that is given is looked up first,
one that was searched for is not; the row is searched for when room was made. -/
inductive Inserts (g : Graph) (k : Kind) (c : ShapeConfig) :
    Option NodeId → EStateM.Result GraphError Graph NodeId → Prop
  | refused {id : NodeId} (hid : g.contains id = true) :
      Inserts g k c (some id) (.error (.duplicateNode id) g)
  | given {id : NodeId} {y : Float} (hid : g.contains id = false)
      (hrow : (g.roomFor k).RowSearch y (Graph.topRow k)) :
      Inserts g k c (some id) ((insertAt k id y c).run g)
  | numbered {n : Nat} {y : Float} (hnumber : g.NumberSearch k n (g.countKind k + 1))
      (hrow : (g.roomFor k).RowSearch y (Graph.topRow k)) :
      Inserts g k c none ((insertAt k (k.numberedId n) y c).run g)

end InPlace

/-- What a block keeps whatever is inserted. -/
def Node.identity (n : Node) : NodeId × Option Kind := (n.id, n.kind?)

theorem Node.map_identity_eq (ns : List Node) :
    ns.map identity = (ns.map blank).map identity := by
  rw [List.map_map]
  apply List.map_congr_left
  intro n _
  exact congrArg (n.id, ·) n.kind?_blank.symm

namespace Graph

variable {g h : Graph} {k : Kind} {c : ShapeConfig} {id : NodeId}

theorem positions_roomFor (g : Graph) (k : Kind) : (g.roomFor k).positions = g.positions := by
  unfold positions
  rw [roomFor_eq_mapNodes, nodes_mapNodes, List.filterMap_map]
  apply List.filterMap_congr
  intro n _
  obtain ⟨i, hi⟩ := g.pushed_eq k n
  simp only [Function.comp_apply, hi]

theorem rowSearch_roomFor {start : Float} :
    (g.roomFor k).RowSearch y start ↔ g.RowSearch y start := by
  have hrows : (g.roomFor k).rowIsTaken = g.rowIsTaken := by
    unfold rowIsTaken
    rw [positions_roomFor]
  rw [RowSearch, RowSearch, hrows]

/-- Behind the room that was made, nothing fails. -/
theorem run_insertAt (hid : g.contains id = false) (k : Kind) (c : ShapeConfig) :
    (InPlace.insertAt k id (g.placement k).y c).run g =
      .ok id ((g.inserted k id c).reconcile c).1 := by
  have hcolumn : (g.roomFor k).freeColumn = (g.placement k).x := by
    rw [freeColumn, positions_roomFor]
    rfl
  have hadd : (g.roomFor k).add
      { Node.new id (g.insertionIndex k) (g.seeded c k) with
        position := some ⟨(g.roomFor k).freeColumn, (g.placement k).y⟩ } =
        .ok (g.inserted k id c) := by
    rw [hcolumn]
    exact add_newNode hid c
  change (ofExcept ((g.roomFor k).add _) >>= fun h => _ : EStateM GraphError Graph NodeId).run
    (g.roomFor k) = _
  rw [hadd]
  rfl

/-- Both searches end, and with them the insertion, in what was said of it with bounds. -/
theorem inserts_iff (hfew : g.nodes.length < 2 ^ 32) {id? : Option NodeId}
    {r : EStateM.Result GraphError Graph NodeId} :
    InPlace.Inserts g k c id? r ↔ r = allOrNothing g (g.insert k id? c) := by
  have hfound := search_placement hfew k
  have hrow : (g.roomFor k).RowSearch (g.placement k).y (topRow k) := rowSearch_roomFor.mpr hfound
  constructor
  · rintro (hid | ⟨hid, hy⟩ | ⟨hnumber, hy⟩)
    · rw [insert_of_contains hid]
      rfl
    · obtain rfl := hy.unique hrow
      rw [insert_of_not_contains hid, run_insertAt hid]
      rfl
    · obtain rfl := hy.unique hrow
      obtain ⟨m, hm, -, hid⟩ := g.search_freshId k
      obtain rfl := hnumber.unique hm
      have hnew := g.not_contains_freshId k
      rw [insert_of_not_contains hnew, ← hid, run_insertAt hnew]
      rfl
  · rintro rfl
    cases id? with
    | none =>
      have hnew := g.not_contains_freshId k
      rw [insert_of_not_contains hnew]
      obtain ⟨m, hm, -, hid⟩ := g.search_freshId k
      have hruns := InPlace.Inserts.numbered (c := c) hm hrow
      rw [← hid, run_insertAt hnew] at hruns
      exact hruns
    | some id =>
      cases hid : g.contains id with
      | true =>
        rw [insert_of_contains hid]
        exact .refused hid
      | false =>
        rw [insert_of_not_contains hid]
        have hruns := InPlace.Inserts.given (c := c) hid hrow
        rw [run_insertAt hid] at hruns
        exact hruns

/-- The new block comes to the others, which all keep their ids and kinds. -/
theorem identities_inserted (hg : WellFormed g) (hnew : g.contains id = false) (k : Kind)
    (c : ShapeConfig) : (((g.inserted k id c).reconcile c).1.nodes.map Node.identity).Perm
      ((id, some k) :: g.nodes.map Node.identity) := by
  have hblank := (agreesBut_reconcile (wellFormed_inserted (k := k) hg hnew c) c).blank
  have hreconciled : ((g.inserted k id c).reconcile c).1.nodes.map Node.identity =
      (g.inserted k id c).nodes.map Node.identity := by
    rw [Node.map_identity_eq, nodes_map_blank_of_blank_eq hblank, ← Node.map_identity_eq]
  have hnode : (g.newNode k id c).identity = (id, some k) :=
    congrArg (id, ·) (Block.kind?_seeded g c k)
  have hpushed : (g.nodes.map (g.pushed k)).map Node.identity = g.nodes.map Node.identity := by
    rw [List.map_map]
    apply List.map_congr_left
    intro n _
    obtain ⟨i, hi⟩ := g.pushed_eq k n
    rw [Function.comp_apply, hi]
    rfl
  have hperm := (nodes_inserted_perm (k := k) hg hnew c).map Node.identity
  rw [List.map_cons, hnode, hpushed] at hperm
  exact hreconciled ▸ hperm

/--
A new block gets the first free number behind the count of its kind, or the id that is given unless
a block has it. Then there is one block more, and the connections are the same. Made in place, with
searches that have no bounds, an insertion ends in just this, and one that fails leaves the graph as
it was, with no room made. There are less than `2 ^ 32` blocks, as many as slots can be numbered.
-/
theorem insert_adds_one (hg : g.Reachable) (k : Kind) (c : ShapeConfig) :
    (∃ n h, g.NumberSearch k n (g.countKind k + 1) ∧
      n ≤ g.countKind k + 1 + g.nodes.length ∧
      IsLeast {i | g.countKind k < i ∧ g.contains (k.numberedId i) = false} n ∧
      g.insert k none c = .ok (k.numberedId n, h)) ∧
    (∀ id, g.insert k (some id) c = .error (.duplicateNode id) ↔ g.contains id = true) ∧
    (∀ id, (∃ h, g.insert k (some id) c = .ok (id, h)) ↔ g.contains id = false) ∧
    (∀ id? id h, g.insert k id? c = .ok (id, h) → h.edges = g.edges ∧
      (h.nodes.map Node.identity).Perm ((id, some k) :: g.nodes.map Node.identity)) ∧
    (g.nodes.length < 2 ^ 32 → g.RowSearch (g.placement k).y (topRow k) ∧
      ∀ id? r, InPlace.Inserts g k c id? r ↔
        r = match g.insert k id? c with
          | .ok (id, h) => .ok id h
          | .error e => .error e g) := by
  refine ⟨?_, ?_, ?_, ?_, ?_⟩
  · obtain ⟨n, hsearch, hbound, hid⟩ := g.search_freshId k
    have hi : g.insert k none c = _ := insert_of_not_contains (g.not_contains_freshId k)
    rw [Option.getD_none, hid] at hi
    exact ⟨n, _, hsearch, hbound, hsearch.isLeast, hi⟩
  · intro id
    cases hid : g.contains id with
    | true => exact iff_of_true (insert_of_contains hid) rfl
    | false =>
      rw [insert_of_not_contains hid]
      simp
  · intro id
    simp only [insert_eq_ok_iff, Option.getD_some, true_and, exists_and_left, exists_eq, and_true]
  · intro id? id h hi
    obtain ⟨-, hnew, rfl⟩ := insert_eq_ok_iff.mp hi
    have hinserted := wellFormed_inserted (k := k) hg.wellFormed hnew c
    have hblank := (agreesBut_reconcile hinserted c).blank
    have hedges := (congrArg Graph.edges hblank).trans (edges_inserted g k id c)
    exact ⟨hedges, identities_inserted hg.wellFormed hnew k c⟩
  · intro hfew
    refine ⟨search_placement hfew k, fun id? r => ?_⟩
    rw [inserts_iff hfew]
    cases g.insert k id? c <;> rfl

/-- A convolution and a start block that have the ids of the next two convolutions, in the first
two rows that a convolution could be put in. -/
def taken : List GraphOperation :=
  [.add { Node.new ⟨"conv-2"⟩ 0 (.convolutional ⟨3, 6, 3, 1⟩) with position := some ⟨40, 300⟩ },
   .add { Node.new ⟨"conv-3"⟩ 0 .start with position := some ⟨-20, 450⟩ },
   .add (.new ⟨"h"⟩ 0 (.hidden ⟨12, 6, .relu⟩)), .addEdge (.connect ⟨"conv-2"⟩ ⟨"h"⟩)]

/-- The searches pass both, and a hidden block with the id of the start block is refused. -/
theorem insert_adds_one_taken :
    let g := taken.foldl GraphOperation.apply empty
    g.Reachable ∧ g.nodes.length < 2 ^ 32 ∧ g.RowSearch 600 300 ∧
    (∃ h, InPlace.Inserts g .convolutional {} none (.ok ⟨"conv-4"⟩ h) ∧ h.edges = g.edges ∧
      (h.nodes.map Node.identity).Perm
        ((⟨"conv-4"⟩, some .convolutional) :: g.nodes.map Node.identity)) ∧
    InPlace.Inserts g .hidden {} (some ⟨"conv-3"⟩) (.error (.duplicateNode ⟨"conv-3"⟩) g) := by
  intro g
  have hg : g.Reachable := ⟨taken, rfl⟩
  have hfew : g.nodes.length < 2 ^ 32 := by decide
  obtain ⟨⟨n, h, -, -, hleast, hi⟩, -, -, hadds, hends⟩ := insert_adds_one hg .convolutional {}
  have htop : topRow .convolutional = 300 := if_pos rfl
  have hrow : (g.placement .convolutional).y = 600 := by decide +kernel
  have hsearch : g.RowSearch 600 300 := by
    rw [← htop, ← hrow]
    exact (hends hfew).1
  refine ⟨hg, hfew, hsearch, ?_, ?_⟩
  · have hfour : g.NumberSearch .convolutional 4 (g.countKind .convolutional + 1) :=
      .next (b := 2) (by decide) (.next (b := 3) (by decide) (.here (by decide)))
    obtain rfl : n = 4 := hleast.unique hfour.isLeast
    have hid : Kind.convolutional.numberedId 4 = ⟨"conv-4"⟩ := by decide
    rw [hid] at hi
    exact ⟨h, ((hends hfew).2 none _).mpr (by rw [hi]), hadds none _ h hi⟩
  · obtain ⟨-, hrefused, -, -, hends⟩ := insert_adds_one hg .hidden {}
    rw [(hends hfew).2, (hrefused ⟨"conv-3"⟩).mpr (by decide)]

end Graph

end LayerGraph
