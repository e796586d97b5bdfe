import LayerGraph.Proofs.Contents
import LayerGraph.Proofs.Edits

namespace LayerGraph

namespace Contents

variable {fmt : RowFormat} {c d : Contents fmt} {id j : ProjectId} {p q : Content}

theorem get_eq_ok_iff : c.get id = .ok p ↔ c.projects.lookup id = some p := by
  unfold get
  cases c.projects.lookup id <;> simp

theorem get_put_self (hp : c.get id = .ok p) (q : Content) : (c.put id q).get id = .ok q := by
  rw [get_eq_ok_iff] at hp ⊢
  unfold put
  rw [lookup_put, hp]
  simp

theorem update_eq_ok_iff {f : Content → Except StorageError Content} :
    c.update id f = .ok d ↔ ∃ p q, c.get id = .ok p ∧ f p = .ok q ∧ d = c.put id q := by
  unfold update
  cases hp : c.get id with
  | error e => simp [bind, Except.bind]
  | ok p => cases hf : f p <;> simp [hf, bind, Except.bind, pure, Except.pure, eq_comm]

theorem get_create (hp : c.get id = .ok p) (name owner : String) :
    (c.create name owner).2.get id = .ok p := by
  rw [get_eq_ok_iff] at hp ⊢
  unfold create
  rw [List.lookup_append, hp]
  rfl

theorem get_delete_of_ne (hj : j ≠ id) (hd : c.delete id = .ok d) (hp : c.get j = .ok p) :
    d.get j = .ok p := by
  unfold delete at hd
  obtain ⟨_, -, hd⟩ := bind_eq_ok_iff.mp hd
  rw [← pure_eq_ok_iff.mp hd]
  rw [get_eq_ok_iff] at hp ⊢
  exact (lookup_filter_ne hj c.projects).trans hp

theorem get_delete_self (hd : c.delete id = .ok d) : d.get id = .error (.projectNotFound id) := by
  unfold delete at hd
  obtain ⟨_, -, hd⟩ := bind_eq_ok_iff.mp hd
  rw [← pure_eq_ok_iff.mp hd]
  unfold get
  have hnone : (c.projects.filter (·.1 ≠ id)).lookup id = none := by
    rw [List.lookup_eq_none_iff]
    intro a ha
    have hne : a.1 ≠ id := by simpa using (List.mem_filter.mp ha).2
    exact bne_iff_ne.mpr hne.symm
  rw [hnone]

theorem mem_list (hp : c.get id = .ok p) : ⟨id, p.name, p.owner⟩ ∈ c.list none := by
  rw [get_eq_ok_iff, List.lookup_eq_some_iff] at hp
  obtain ⟨l₁, l₂, hl, -⟩ := hp
  unfold list
  rw [hl]
  simp

end Contents

namespace StoreCall

variable {σ τ α : Type} {contents : σ → τ} {s : σ}

theorem write_eq_map {r : Except StorageError σ} {k : Except StorageError τ}
    (h : write (contents s) k = ((write s r).1, contents (write s r).2)) :
    k = r.map contents := by
  cases r with
  | error e =>
    cases k with
    | error e' =>
      have he := congrArg Prod.fst h
      simp only [write, Except.error.injEq] at he
      rw [he]
      rfl
    | ok t => cases congrArg Prod.fst h
  | ok t =>
    cases k with
    | error e => cases congrArg Prod.fst h
    | ok t' => exact congrArg Except.ok (congrArg Prod.snd h)

theorem read_eq {reply : α → StoreReply} (hreply : ∀ a b, reply a = reply b → a = b)
    {a b : Except StorageError α}
    (h : read (contents s) reply b = ((read s reply a).1, contents (read s reply a).2)) : b = a := by
  have he : reply <$> b = reply <$> a := congrArg Prod.fst h
  cases a <;> cases b
  · exact congrArg Except.error (Except.error.inj he)
  · cases he
  · cases he
  · exact congrArg Except.ok (hreply _ _ (Except.ok.inj he))

end StoreCall

namespace LawfulStore

variable {σ : Type} [ProjectStore σ] [LawfulStore σ] {s t : σ} {id : ProjectId}

theorem load_contents (hs : Valid s) (id : ProjectId) :
    (contents s).readFrom id (·.load id) = ProjectStore.load s id :=
  StoreCall.read_eq (fun _ _ h => StoreReply.project.inj h) (run_contents s (.load id) hs)

theorem list_contents (hs : Valid s) (owner : Option String) :
    ProjectStore.list s owner = .ok ((contents s).list owner) :=
  (StoreCall.read_eq (fun _ _ h => StoreReply.summaries.inj h)
    (run_contents s (.list owner) hs)).symm

theorem save_contents (hs : Valid s) (id : ProjectId) (g : Graph) (tr : Training) :
    (contents s).update id (fun p => .ok (p.save (format σ) g tr)) =
      (ProjectStore.save s id g tr).map contents :=
  StoreCall.write_eq_map (run_contents s (.save id g tr) hs)

theorem delete_contents (hs : Valid s) (id : ProjectId) :
    (contents s).delete id = (ProjectStore.delete s id).map contents :=
  StoreCall.write_eq_map (run_contents s (.delete id) hs)

theorem updateNode_contents (hs : Valid s) (id : ProjectId) (n : Node) :
    (contents s).update id (·.updateNode (format σ) id n) =
      (ProjectStore.updateNode s id n).map contents :=
  StoreCall.write_eq_map (run_contents s (.updateNode id n) hs)

theorem insertEdge_contents (hs : Valid s) (id : ProjectId) (e : Edge) :
    (contents s).update id (·.insertEdge e) = (ProjectStore.insertEdge s id e).map contents :=
  StoreCall.write_eq_map (run_contents s (.insertEdge id e) hs)

theorem deleteEdge_contents (hs : Valid s) (id : ProjectId) (edge : EdgeId) :
    (contents s).update id (·.deleteEdge id edge) =
      (ProjectStore.deleteEdge s id edge).map contents :=
  StoreCall.write_eq_map (run_contents s (.deleteEdge id edge) hs)

theorem setTraining_contents (hs : Valid s) (id : ProjectId) (tr : Training) :
    (contents s).update id (fun p => .ok { p with training := (format σ).training tr }) =
      (ProjectStore.setTraining s id tr).map contents :=
  StoreCall.write_eq_map (run_contents s (.setTraining id tr) hs)

theorem create_contents (hs : Valid s) {name owner : String}
    (h : ProjectStore.create s name owner = .ok (id, t)) :
    (contents s).create name owner = (id, contents t) := by
  have hrun := run_contents s (.create name owner) hs
  simp only [StoreCall.run, h] at hrun
  have hc : ProjectStore.create (contents s) name owner =
      .ok ((contents s).create name owner) := rfl
  rw [hc] at hrun
  obtain ⟨hid, ht⟩ := Prod.mk.inj hrun
  exact Prod.ext (StoreReply.created.inj (Except.ok.inj hid)) ht

/-- A write that succeeds leaves a valid store, with the rows of all other projects as they were. -/
theorem beside_of_write {k : StoreCall} {r : Except StorageError σ} (hs : Valid s)
    (hcall : k.run s = StoreCall.write s r) (htarget : k.target? (contents s).nextId = some id)
    (hr : r = .ok t) : Beside Valid rows s id t := by
  have ht : (k.run s).2 = t := by
    rw [hcall, hr]
    rfl
  constructor
  · exact ht ▸ valid_run s k hs
  · intro j hj
    have hrows := rows_run s k j hs
    rw [ht, htarget] at hrows
    exact hrows fun h => hj (Option.some.inj h).symm

/-- A write that its content takes. -/
structure Wrote (s : σ) (id : ProjectId) (q : Content) (t : σ) : Prop where
  beside : Beside Valid rows s id t
  get_eq : (contents t).get id = .ok q

theorem wrote_of_update {f : Content → Except StorageError Content} {r : Except StorageError σ}
    {p q : Content} {k : StoreCall} (hs : Valid s) (hcall : k.run s = StoreCall.write s r)
    (htarget : k.target? (contents s).nextId = some id)
    (hmap : (contents s).update id f = r.map contents) (hp : (contents s).get id = .ok p)
    (hf : f p = .ok q) : ∃ t, r = .ok t ∧ Wrote s id q t := by
  have hput : (contents s).update id f = .ok ((contents s).put id q) :=
    Contents.update_eq_ok_iff.mpr ⟨p, q, hp, hf, rfl⟩
  cases r with
  | error e =>
    -- the contents take the write, so the store does
    rw [hput] at hmap
    cases hmap
  | ok t =>
    have ht : contents t = (contents s).put id q := (Except.ok.inj (hput.symm.trans hmap)).symm
    refine ⟨t, rfl, beside_of_write hs hcall htarget rfl, ?_⟩
    rw [ht]
    exact Contents.get_put_self hp q

variable {p q : Content}

theorem wrote_save (hs : Valid s) (hp : (contents s).get id = .ok p) (g : Graph) (tr : Training) :
    ∃ t, ProjectStore.save s id g tr = .ok t ∧ Wrote s id (p.save (format σ) g tr) t :=
  wrote_of_update (k := .save id g tr) hs rfl rfl (save_contents hs id g tr) hp rfl

theorem wrote_updateNode {n : Node} (hs : Valid s) (hp : (contents s).get id = .ok p)
    (hq : p.updateNode (format σ) id n = .ok q) :
    ∃ t, ProjectStore.updateNode s id n = .ok t ∧ Wrote s id q t :=
  wrote_of_update (k := .updateNode id n) hs rfl rfl (updateNode_contents hs id n) hp hq

theorem wrote_insertEdge {e : Edge} (hs : Valid s) (hp : (contents s).get id = .ok p)
    (hq : p.insertEdge e = .ok q) :
    ∃ t, ProjectStore.insertEdge s id e = .ok t ∧ Wrote s id q t :=
  wrote_of_update (k := .insertEdge id e) hs rfl rfl (insertEdge_contents hs id e) hp hq

theorem wrote_deleteEdge {edge : EdgeId} (hs : Valid s) (hp : (contents s).get id = .ok p)
    (hq : p.deleteEdge id edge = .ok q) :
    ∃ t, ProjectStore.deleteEdge s id edge = .ok t ∧ Wrote s id q t :=
  wrote_of_update (k := .deleteEdge id edge) hs rfl rfl (deleteEdge_contents hs id edge) hp hq

theorem wrote_setTraining (hs : Valid s) (hp : (contents s).get id = .ok p) (tr : Training) :
    ∃ t, ProjectStore.setTraining s id tr = .ok t ∧
      Wrote s id { p with training := (format σ).training tr } t :=
  wrote_of_update (k := .setTraining id tr) hs rfl rfl (setTraining_contents hs id tr) hp rfl

end LawfulStore

end LayerGraph
