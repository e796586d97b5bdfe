import LayerGraph.Linearization
import LayerGraph.Proofs.WellFormed
import Mathlib.Logic.Function.Iterate

namespace LayerGraph

/--
A recursive walk. It takes some things in turn and visits each together with all that is behind it
before it comes to the next one. What has been visited by then is passed over: `seen` before the
walk, `order` in its course.
-/
inductive DepthFirst {α : Type} (next : α → List α) : (seen todo order : List α) → Prop where
  | done {seen : List α} : DepthFirst next seen [] []
  | pass {seen xs order : List α} {x : α} (hx : x ∈ seen)
    (hrest : DepthFirst next seen xs order) : DepthFirst next seen (x :: xs) order
  | visit {seen xs below order : List α} {x : α} (hx : x ∉ seen)
    (hbelow : DepthFirst next (seen ++ [x]) (next x) below)
    (hrest : DepthFirst next (seen ++ x :: below) xs order) :
    DepthFirst next seen (x :: xs) (x :: below ++ order)

section Walks

variable {α : Type} {next : α → List α} {all seen xs order rest : List α} {x : α}

/-- Nothing is visited twice. -/
theorem DepthFirst.nodup (h : DepthFirst next seen xs order) (hseen : seen.Nodup) :
    (seen ++ order).Nodup := by
  induction h with
  | done => rwa [List.append_nil]
  | pass _ _ ih => exact ih hseen
  | @visit seen xs below order x hx _ _ ihbelow ihrest =>
    have hx' : (seen ++ [x]).Nodup := List.nodup_append_comm.mp (List.nodup_cons.mpr ⟨hx, hseen⟩)
    have hbelow := ihbelow hx'
    rw [List.append_assoc, List.singleton_append] at hbelow
    have hrest := ihrest hbelow
    rwa [List.append_assoc] at hrest

/-- All that is visited is behind something that is taken in turn. -/
theorem DepthFirst.exists_reflTransGen (h : DepthFirst next seen xs order) {a : α}
    (ha : a ∈ order) : ∃ x ∈ xs, Relation.ReflTransGen (fun a b => b ∈ next a) x a := by
  induction h with
  | done => cases ha
  | pass _ _ ih =>
    obtain ⟨x, hx, hxa⟩ := ih ha
    exact ⟨x, List.mem_cons_of_mem _ hx, hxa⟩
  | @visit seen xs below order x _ _ _ ihbelow ihrest =>
    rcases List.mem_append.mp ha with ha | ha
    · rcases List.mem_cons.mp ha with rfl | ha
      · exact ⟨a, List.mem_cons_self, .refl⟩
      · obtain ⟨y, hy, hya⟩ := ihbelow ha
        exact ⟨x, List.mem_cons_self, .head hy hya⟩
    · obtain ⟨y, hy, hya⟩ := ihrest ha
      exact ⟨y, List.mem_cons_of_mem _ hy, hya⟩

/-- A walk goes the same way where the same is behind all that it visits. -/
theorem DepthFirst.congr {next' : α → List α} (h : DepthFirst next seen xs order)
    (hnext : ∀ a ∈ order, next' a = next a) : DepthFirst next' seen xs order := by
  induction h with
  | done => exact .done
  | pass hx _ ih => exact .pass hx (ih hnext)
  | visit hx _ _ ihbelow ihrest =>
    rw [List.cons_append, List.forall_mem_cons, List.forall_mem_append] at hnext
    obtain ⟨hx', hbelow, hrest⟩ := hnext
    refine .visit hx ?_ (ihrest hrest)
    rw [hx']
    exact ihbelow hbelow

/-- A walk does not leave what is closed under what is behind it. -/
theorem DepthFirst.subset (h : DepthFirst next seen xs order) (hnext : ∀ x ∈ all, next x ⊆ all)
    (hxs : xs ⊆ all) : order ⊆ all := by
  induction h with
  | done => exact List.nil_subset _
  | pass _ _ ih => exact ih (List.subset_of_cons_subset hxs)
  | visit _ _ _ ihbelow ihrest =>
    obtain ⟨hx, hxs⟩ := List.cons_subset.mp hxs
    rw [List.cons_append, List.cons_subset, List.append_subset]
    exact ⟨hx, ihbelow (hnext _ hx), ihrest hxs⟩

/-- What is taken in turn has been seen in the end, and so has what is behind what is visited. -/
theorem DepthFirst.closed (h : DepthFirst next seen xs order) :
    xs ⊆ seen ++ order ∧ ∀ a ∈ order, next a ⊆ seen ++ order := by
  induction h with
  | done => simp
  | pass hx _ ih => exact ⟨List.cons_subset.mpr ⟨List.mem_append_left _ hx, ih.1⟩, ih.2⟩
  | @visit seen xs below order x _ _ _ ihbelow ihrest =>
    have hsub : seen ++ [x] ++ below ⊆ seen ++ (x :: below ++ order) := by
      intro a
      simp only [List.mem_append, List.mem_cons, List.not_mem_nil]
      tauto
    have hrest : seen ++ x :: below ++ order = seen ++ (x :: below ++ order) :=
      List.append_assoc _ _ _
    rw [hrest] at ihrest
    refine ⟨List.cons_subset.mpr ⟨by simp, ihrest.1⟩, ?_⟩
    intro a ha
    rcases List.mem_append.mp ha with ha | ha
    · rcases List.mem_cons.mp ha with rfl | ha
      · exact List.Subset.trans ihbelow.1 hsub
      · exact List.Subset.trans (ihbelow.2 a ha) hsub
    · exact ihrest.2 a ha

variable [DecidableEq α]

theorem walk_cons_of_mem (hall : all.Nodup) (hx : x ∈ seen) :
    walk next (all.diff seen) (x :: rest) = walk next (all.diff seen) rest := by
  rw [walk, if_neg fun h => (hall.mem_sdiff_iff.mp h).2 hx]

theorem walk_cons_of_not_mem (hall : all.Nodup) (hxa : x ∈ all) (hx : x ∉ seen) :
    walk next (all.diff seen) (x :: rest) =
      x :: walk next (all.diff (seen ++ [x])) (next x ++ rest) := by
  rw [walk, if_pos (hall.mem_sdiff_iff.mpr ⟨hxa, hx⟩), List.diff_append, List.diff_cons,
    List.diff_nil]

/-- The rest of the stack is found as it was when all on top of it has been walked along. -/
theorem DepthFirst.walk_append (hall : all.Nodup) (hnext : ∀ x ∈ all, next x ⊆ all)
    (h : DepthFirst next seen xs order) (hxs : xs ⊆ all) (rest : List α) :
    walk next (all.diff seen) (xs ++ rest) =
      order ++ walk next (all.diff (seen ++ order)) rest := by
  induction h generalizing rest with
  | done => rw [List.append_nil, List.nil_append, List.nil_append]
  | pass hx _ ih =>
    rw [List.cons_append, walk_cons_of_mem hall hx, ih (List.subset_of_cons_subset hxs)]
  | @visit seen xs below order x hx _ _ ihbelow ihrest =>
    have hxa : x ∈ all := hxs List.mem_cons_self
    calc
      walk next (all.diff seen) (x :: xs ++ rest)
        = x :: walk next (all.diff (seen ++ [x])) (next x ++ (xs ++ rest)) :=
          walk_cons_of_not_mem hall hxa hx
      _ = x :: (below ++ walk next (all.diff (seen ++ x :: below)) (xs ++ rest)) := by
          rw [ihbelow (hnext x hxa), List.append_assoc, List.singleton_append]
      _ = x :: (below ++ (order ++ walk next (all.diff (seen ++ x :: below ++ order)) rest)) := by
          rw [ihrest (List.subset_of_cons_subset hxs)]
      _ = _ := by simp only [List.cons_append, List.append_assoc]

/-- The recursion comes to an end: every visit leaves less to see. -/
theorem exists_depthFirst (hall : all.Nodup) (hnext : ∀ x ∈ all, next x ⊆ all) (hxs : xs ⊆ all)
    (seen : List α) : ∃ order, DepthFirst next seen xs order := by
  -- on how much is left to see; what is passed over leaves as much, but less to take in turn
  induction hn : (all.diff seen).length using Nat.strong_induction_on generalizing seen xs with
  | _ n ih =>
  subst hn
  induction xs with
  | nil => exact ⟨[], .done⟩
  | cons x xs ihxs =>
    obtain ⟨hxa, hxs⟩ := List.cons_subset.mp hxs
    by_cases hx : x ∈ seen
    · obtain ⟨order, h⟩ := ihxs hxs
      exact ⟨order, .pass hx h⟩
    · have hlt : ∀ below, (all.diff (seen ++ x :: below)).length < (all.diff seen).length := by
        intro below
        have hmem : x ∈ all.diff seen := hall.mem_sdiff_iff.mpr ⟨hxa, hx⟩
        rw [List.diff_append, List.diff_cons]
        calc
          _ ≤ ((all.diff seen).erase x).length := (List.diff_sublist _ below).length_le
          _ < (all.diff seen).length := by
            have := List.length_pos_of_mem hmem
            rw [List.length_erase_of_mem hmem]
            omega
      obtain ⟨below, hbelow⟩ := ih _ (hlt []) (hnext x hxa) _ rfl
      obtain ⟨order, hrest⟩ := ih _ (hlt below) hxs _ rfl
      exact ⟨x :: below ++ order, .visit hx hbelow hrest⟩

theorem depthFirst_iff (hall : all.Nodup) (hnext : ∀ x ∈ all, next x ⊆ all) (hxs : xs ⊆ all) :
    DepthFirst next seen xs order ↔ order = walk next (all.diff seen) xs := by
  have hwalk : ∀ order, DepthFirst next seen xs order → order = walk next (all.diff seen) xs := by
    intro order h
    have happend := h.walk_append hall hnext hxs []
    rwa [walk, List.append_nil, List.append_nil, eq_comm] at happend
  constructor
  · exact hwalk order
  · rintro rfl
    obtain ⟨order, h⟩ := exists_depthFirst hall hnext hxs seen
    rwa [← hwalk order h]

theorem mem_walk_iff (hall : all.Nodup) (hnext : ∀ x ∈ all, next x ⊆ all) (hxs : xs ⊆ all) {a : α} :
    a ∈ walk next all xs ↔ ∃ x ∈ xs, Relation.ReflTransGen (fun a b => b ∈ next a) x a := by
  have h : DepthFirst next [] xs (walk next all xs) := (depthFirst_iff hall hnext hxs).mpr rfl
  constructor
  · exact h.exists_reflTransGen
  · rintro ⟨x, hx, hxa⟩
    induction hxa with
    | refl => exact h.closed.1 hx
    | tail _ hbc ih => exact h.closed.2 _ ih hbc

/-- A walk on its way. Some things are on the stack more than once, or have been visited since. -/
structure Walker (α : Type) where
  visited : List α
  stack : List α
  deriving DecidableEq

/-- Takes what is on top of the stack. -/
def Walker.turn (next : α → List α) (w : Walker α) : Walker α :=
  match w.stack with
  | [] => w
  | x :: rest =>
    if x ∈ w.visited then { w with stack := rest } else ⟨w.visited ++ [x], next x ++ rest⟩

/-- How many turns are left at most: one for each on the stack, and for each that may come on it. -/
def Walker.turnsLeft (next : α → List α) (all : List α) (w : Walker α) : Nat :=
  w.stack.length + ((all.diff w.visited).map fun x => (next x).length).sum

namespace Walker

theorem turn_of_mem (hx : x ∈ seen) : turn next ⟨seen, x :: rest⟩ = ⟨seen, rest⟩ := if_pos hx

theorem turn_of_not_mem (hx : x ∉ seen) :
    turn next ⟨seen, x :: rest⟩ = ⟨seen ++ [x], next x ++ rest⟩ := if_neg hx

theorem turnsLeft_of_not_mem (hall : all.Nodup) (hxa : x ∈ all) (hx : x ∉ seen) :
    turnsLeft next all ⟨seen ++ [x], next x ++ rest⟩ + 1 =
      turnsLeft next all ⟨seen, x :: rest⟩ := by
  have hmem : x ∈ all.diff seen := hall.mem_sdiff_iff.mpr ⟨hxa, hx⟩
  have hsum := List.sum_map_erase (fun x => (next x).length) hmem
  simp only [turnsLeft, List.length_append, List.length_cons, List.diff_append, List.diff_cons,
    List.diff_nil]
  omega

/-- When there are no more turns left, all that the walk still has to visit has been visited. -/
theorem iterate_turn (hall : all.Nodup) (hnext : ∀ x ∈ all, next x ⊆ all) {w : Walker α}
    (hstack : w.stack ⊆ all) {n : ℕ} (hn : w.turnsLeft next all ≤ n) :
    (turn next)^[n] w = ⟨w.visited ++ walk next (all.diff w.visited) w.stack, []⟩ := by
  induction n generalizing w with
  | zero =>
    obtain ⟨seen, stack⟩ := w
    -- whatever is on the stack has a turn left
    simp only [turnsLeft] at hn
    obtain rfl : stack = [] := List.eq_nil_of_length_eq_zero (by omega)
    rw [walk, List.append_nil, Function.iterate_zero_apply]
  | succ n ih =>
    obtain ⟨seen, stack⟩ := w
    rw [Function.iterate_succ_apply]
    cases stack with
    | nil =>
      rw [walk, List.append_nil]
      exact Function.iterate_fixed rfl (n := n)
    | cons x rest =>
      obtain ⟨hxa, hrest⟩ := List.cons_subset.mp hstack
      by_cases hx : x ∈ seen
      · have hleft : turnsLeft next all ⟨seen, rest⟩ ≤ n := by
          simp only [turnsLeft, List.length_cons] at hn ⊢
          omega
        rw [turn_of_mem hx, ih hrest hleft, walk_cons_of_mem hall hx]
      · have hleft : turnsLeft next all ⟨seen ++ [x], next x ++ rest⟩ + 1 =
            turnsLeft next all ⟨seen, x :: rest⟩ := turnsLeft_of_not_mem hall hxa hx
        rw [turn_of_not_mem hx, ih (List.append_subset.mpr ⟨hnext x hxa, hrest⟩) (by omega),
          walk_cons_of_not_mem hall hxa hx, List.append_assoc, List.singleton_append]

end Walker

/-- A walk that has had its turns has visited all that it will. -/
theorem walk_eq_visited (hall : all.Nodup) (hnext : ∀ x ∈ all, next x ⊆ all) (hxs : xs ⊆ all)
    {n : ℕ} (hn : (⟨[], xs⟩ : Walker α).turnsLeft next all ≤ n) :
    walk next all xs = ((Walker.turn next)^[n] ⟨[], xs⟩).visited := by
  rw [Walker.iterate_turn hall hnext hxs hn, List.diff_nil, List.nil_append]

end Walks

namespace Graph

variable {g : Graph} {start : NodeId}

theorem successors_subset (hg : WellFormed g) (id : NodeId) : g.successors id ⊆ g.ids := by
  intro t ht
  obtain ⟨e, he, rfl⟩ := List.mem_map.mp ht
  obtain ⟨-, -, htarget⟩ := hg.edge_ends e (List.mem_of_mem_filter he)
  obtain ⟨n, hn, hid⟩ := contains_iff.mp htarget
  exact hid ▸ List.mem_map_of_mem hn

theorem depthFirst_iff_reach (hg : WellFormed g) (hs : start ∈ g.ids) {order : List NodeId} :
    DepthFirst g.successors [] [start] order ↔ order = g.reach start :=
  depthFirst_iff hg.ids_nodup (fun id _ => successors_subset hg id)
    (List.cons_subset.mpr ⟨hs, List.nil_subset _⟩)

theorem depthFirst_reach (hg : WellFormed g) (hs : start ∈ g.ids) :
    DepthFirst g.successors [] [start] (g.reach start) := (depthFirst_iff_reach hg hs).mpr rfl

theorem reach_subset (hg : WellFormed g) (hs : start ∈ g.ids) : g.reach start ⊆ g.ids :=
  (depthFirst_reach hg hs).subset (fun id _ => successors_subset hg id)
    (List.cons_subset.mpr ⟨hs, List.nil_subset _⟩)

theorem mem_ids_of_findStart (h : g.findStart = .ok start) : start ∈ g.ids := by
  unfold findStart at h
  split at h
  · rename_i id hc
    obtain rfl : id = start := Except.ok.inj h
    have hmem : id ∈ g.startCandidates := hc ▸ List.mem_singleton_self id
    obtain ⟨n, hn, rfl⟩ := List.mem_map.mp hmem
    exact List.mem_map_of_mem (List.mem_of_mem_filter hn)
  · cases h

theorem linearize_eq_ok {l : Linearization} (hl : g.linearize = .ok l) :
    g.findStart = .ok l.start ∧
      l.layers = (g.reach l.start).filter (fun id => (g.node? id).any (·.isLayer)) ∧
      l.skipped = g.nodes.filterMap (·.skipped?) ∧
      l.unreachable =
        (g.nodes.filter fun n => n.isLayer && !(g.reach l.start).contains n.id).map (·.id) := by
  unfold linearize at hl
  cases hs : g.findStart with
  | error ids => simp [hs] at hl
  | ok start =>
    simp only [hs, Except.ok.injEq] at hl
    subst hl
    exact ⟨rfl, rfl, rfl, rfl⟩

theorem exists_node?_of_mem_layers {l : Linearization} {id : NodeId} (hl : g.linearize = .ok l)
    (hid : id ∈ l.layers) : ∃ n, g.node? id = some n ∧ n.isLayer = true := by
  rw [(linearize_eq_ok hl).2.1] at hid
  exact (Option.any_eq_true _ _).mp (List.mem_filter.mp hid).2

theorem contains_of_mem_layers {l : Linearization} {id : NodeId} (hl : g.linearize = .ok l)
    (hid : id ∈ l.layers) : g.contains id = true := by
  obtain ⟨n, hn, -⟩ := exists_node?_of_mem_layers hl hid
  exact Option.isSome_iff_exists.mpr ⟨n, hn⟩

/-- A connection comes out of one block only. -/
theorem sum_length_sources_le {ids : List NodeId} (hids : ids.Nodup) (edges : List Edge) :
    (ids.map fun id => (edges.filter (·.source = id)).length).sum ≤ edges.length := by
  induction ids generalizing edges with
  | nil => exact Nat.zero_le _
  | cons id ids ih =>
    obtain ⟨hid, hids⟩ := List.nodup_cons.mp hids
    -- the others come out of the other blocks
    have hrest : (ids.map fun i => (edges.filter (·.source = i)).length).sum ≤
        (edges.filter fun e => !decide (e.source = id)).length := by
      have hsame : ∀ i ∈ ids, (edges.filter (·.source = i)).length =
          ((edges.filter fun e => !decide (e.source = id)).filter (·.source = i)).length := by
        intro i hi
        have hne : i ≠ id := fun h => hid (h ▸ hi)
        rw [List.filter_filter]
        congr 2
        funext e
        by_cases he : e.source = i <;> simp [he, hne]
      rw [List.map_congr_left hsame]
      exact ih hids _
    have hsplit := edges.length_eq_length_filter_add (·.source = id)
    rw [List.map_cons, List.sum_cons]
    omega

theorem turnsLeft_start_le (hg : WellFormed g) (start : NodeId) :
    (⟨[], [start]⟩ : Walker NodeId).turnsLeft g.successors g.ids ≤ g.edges.length + 1 := by
  have hsum := sum_length_sources_le hg.ids_nodup g.edges
  simp only [Walker.turnsLeft, List.length_singleton, List.diff_nil, successors, List.length_map,
    outgoing]
  change _ + (List.map _ (g.nodes.map (·.id))).sum ≤ _
  omega

/--
The layers of a graph, cyclic or not, are those that a recursive walk from its start visits, in that
order and each once. A walk with a stack has visited them after a turn for the start and one for
every connection.
-/
theorem linearize_depthFirst (hg : g.Reachable) (hs : g.findStart = .ok start) :
    ∃ order l, (∀ o, DepthFirst g.successors [] [start] o ↔ o = order) ∧
      g.linearize = .ok l ∧
      l.layers = order.filter (fun id => (g.node? id).any (·.isLayer)) ∧
      l.layers.Nodup ∧
      ∀ n, g.edges.length < n → (Walker.turn g.successors)^[n] ⟨[], [start]⟩ = ⟨order, []⟩ := by
  have hw := hg.wellFormed
  have hids : g.ids.Nodup := hw.ids_nodup
  have hnext : ∀ id ∈ g.ids, g.successors id ⊆ g.ids := fun id _ => successors_subset hw id
  have hstart : [start] ⊆ g.ids := List.cons_subset.mpr ⟨mem_ids_of_findStart hs, List.nil_subset _⟩
  have hfirst : ∀ o, DepthFirst g.successors [] [start] o ↔ o = g.reach start := fun _ =>
    depthFirst_iff hids hnext hstart
  have hnodup : (g.reach start).Nodup := ((hfirst _).mpr rfl).nodup List.nodup_nil
  refine ⟨g.reach start, _, hfirst, by rw [linearize, hs], rfl, hnodup.filter _, ?_⟩
  intro n hn
  have hleft := (turnsLeft_start_le hw start).trans (Nat.succ_le_of_lt hn)
  rw [Walker.iterate_turn hids hnext hstart hleft, List.diff_nil]
  rfl

/--
Two layers lead to each other, one of them twice to the other. Between them is a placeholder, and in
front of the start is one that nothing leads to.
-/
def tangled : List GraphOperation :=
  [.add (.new ⟨"note"⟩ 0 (.unknown "textBlock" .null)), .add (.new ⟨"start"⟩ 0 .start),
   .add (.new ⟨"a"⟩ 0 (.convolutional ⟨3, 32, 3, 1⟩)),
   .add (.new ⟨"b"⟩ 1 (.convolutional ⟨32, 64, 3, 1⟩)),
   .add (.new ⟨"gap"⟩ 0 (.unknown "textBlock" .null)),
   .add (.new ⟨"out"⟩ 0 (.output ⟨8, 4⟩)), .addEdge ⟨⟨"1"⟩, ⟨"note"⟩, ⟨"start"⟩⟩,
   .addEdge ⟨⟨"2"⟩, ⟨"start"⟩, ⟨"b"⟩⟩, .addEdge ⟨⟨"3"⟩, ⟨"start"⟩, ⟨"a"⟩⟩,
   .addEdge ⟨⟨"4"⟩, ⟨"b"⟩, ⟨"gap"⟩⟩, .addEdge ⟨⟨"5"⟩, ⟨"b"⟩, ⟨"out"⟩⟩,
   .addEdge ⟨⟨"6"⟩, ⟨"gap"⟩, ⟨"a"⟩⟩, .addEdge ⟨⟨"7"⟩, ⟨"a"⟩, ⟨"b"⟩⟩,
   .addEdge ⟨⟨"8"⟩, ⟨"a"⟩, ⟨"b"⟩⟩]

theorem linearize_depthFirst_tangled :
    let g := tangled.foldl GraphOperation.apply Graph.empty
    g.Reachable ∧ g.findStart = .ok ⟨"start"⟩ ∧
    DepthFirst g.successors [] [⟨"start"⟩] [⟨"start"⟩, ⟨"b"⟩, ⟨"gap"⟩, ⟨"a"⟩, ⟨"out"⟩] ∧
    ∃ l, g.linearize = .ok l ∧ l.layers = [⟨"b"⟩, ⟨"a"⟩, ⟨"out"⟩] := by
  intro g
  have hg : g.Reachable := ⟨tangled, rfl⟩
  have hs : g.findStart = .ok ⟨"start"⟩ := by
    have hfed : g.fedPlaceholders = [⟨"gap"⟩] := by
      change walk _ g.ids [⟨"gap"⟩] = _
      rw [walk, if_pos (by decide)]
      change _ :: walk _ _ [] = _
      rw [walk]
    have hcandidates : g.startCandidates = [⟨"start"⟩] := by
      unfold startCandidates
      rw [hfed]
      decide
    unfold findStart
    rw [hcandidates]
  obtain ⟨order, l, hfirst, hl, hlayers, -, hturns⟩ := linearize_depthFirst hg hs
  have horder : order = [⟨"start"⟩, ⟨"b"⟩, ⟨"gap"⟩, ⟨"a"⟩, ⟨"out"⟩] := by
    have hturn := hturns 9 (by decide)
    have hrun : (Walker.turn g.successors)^[9] ⟨[], [⟨"start"⟩]⟩ =
        ⟨[⟨"start"⟩, ⟨"b"⟩, ⟨"gap"⟩, ⟨"a"⟩, ⟨"out"⟩], []⟩ := by decide
    exact congrArg Walker.visited (hturn.symm.trans hrun)
  exact ⟨hg, hs, (hfirst _).mpr horder.symm, l, hl, by rw [hlayers, horder]; decide⟩

end Graph
end LayerGraph
