import LayerGraph.Proofs.EditInPlace
import LayerGraph.Proofs.Edits

namespace LayerGraph

/-- What is kept of a value of the domain is in the domain too. -/
theorem Domain.rejection?_of_kept? {d : Domain} {v w : ParamValue} (hv : d.rejection? v = none)
    (hw : d.kept? v = some w) : d.rejection? w = none := by
  rw [rejection?_eq_none_iff] at hv ⊢
  cases d with
  | positiveInt =>
    obtain ⟨n, hn, hpos⟩ := hv
    obtain rfl : ParamValue.ofUInt32 n = w := by simpa [kept?, hn] using hw
    exact ⟨n, ParamValue.uint32?_ofUInt32 n, hpos⟩
  | nonNegativeInt =>
    obtain ⟨n, hn⟩ := hv
    obtain rfl : ParamValue.ofUInt32 n = w := by simpa [kept?, hn] using hw
    exact ⟨n, ParamValue.uint32?_ofUInt32 n⟩
  | positiveFloat | fraction =>
    obtain ⟨x, hx, hrange⟩ := hv
    obtain rfl : ParamValue.float x = w := by simpa [kept?, hx] using hw
    exact ⟨x, rfl, hrange⟩
  | choice options =>
    obtain ⟨s, hs, hv⟩ := hv
    obtain rfl : ParamValue.text s = w := by simpa [kept?, hv] using hw
    exact ⟨s, hs, rfl⟩
  | flag =>
    obtain ⟨b, hb⟩ := hv
    obtain rfl : ParamValue.bool b = w := by simpa [kept?, hb] using hw
    exact ⟨b, rfl⟩
  | names =>
    obtain ⟨ns, hns, hblank⟩ := hv
    obtain rfl : ParamValue.names ns = w := by simpa [kept?, hns] using hw
    exact ⟨ns, rfl, hblank⟩

namespace ParamSpec

variable {spec : ParamSpec} {v : ParamValue} {why : Rejection}

theorem check_eq_ok_iff : spec.check v = .ok () ↔ spec.domain.rejection? v = none := by
  unfold check
  cases spec.domain.rejection? v <;> simp

theorem check_eq_error_iff : spec.check v = .error (.invalidParameter spec.param.name why) ↔
    spec.domain.rejection? v = some why := by
  unfold check
  cases spec.domain.rejection? v <;> simp

end ParamSpec

namespace Block

variable {b b' : Block} {k : Kind} {name : String} {v w : ParamValue} {spec : ParamSpec}

theorem get?_eq_none (hs : ∀ k, b.kind? = some k → k.param? name = none) : b.get? name = none := by
  cases hv : b.get? name with
  | none => rfl
  | some v =>
    obtain ⟨k, spec, hk, hspec⟩ := exists_param?_of_get? hv
    rw [hs k hk] at hspec
    cases hspec

/-- Every parameter of the kind can be read. -/
theorem exists_get? (hk : b.kind? = some k) (hspec : spec ∈ k.params) :
    ∃ w, b.get? spec.param.name = some w := by
  obtain ⟨w, hw⟩ := Option.isSome_iff_exists.mp (isSome_read? hk spec hspec)
  exact ⟨w, (get?_name b spec.param).trans hw⟩

/-- A parameter is reported just when the value that is read of it fails its check. -/
theorem mem_rejections_iff (hk : b.kind? = some k) (hspec : spec ∈ k.params)
    (hw : b.get? spec.param.name = some w) {why : Rejection} :
    (spec.param, why) ∈ b.rejections ↔
      spec.check w = .error (.invalidParameter spec.param.name why) := by
  have hs : k.param? spec.param.name = some spec := Kind.param?_eq_some_iff.mpr ⟨hspec, rfl⟩
  rw [ParamSpec.check_eq_error_iff]
  unfold rejections
  rw [hk, List.mem_filterMap]
  constructor
  · rintro ⟨spec', hspec', h⟩
    obtain ⟨w', hw', h⟩ := Option.bind_eq_some_iff.mp h
    obtain ⟨why', hwhy, h⟩ := Option.bind_eq_some_iff.mp h
    obtain ⟨hparam, rfl⟩ := Prod.mk.inj (Option.some.inj h)
    -- names are not repeated, so the entry is that of the parameter itself
    have hs' : k.param? spec.param.name = some spec' :=
      Kind.param?_eq_some_iff.mpr ⟨hspec', congrArg Param.name hparam⟩
    obtain rfl := Option.some.inj (hs.symm.trans hs')
    obtain rfl := Option.some.inj (hw.symm.trans hw')
    exact hwhy
  · intro hwhy
    exact ⟨spec, hspec, by simp [-get?_name, hw, hwhy]⟩

/-- What is read of a parameter is as the parameter keeps it. -/
theorem kept?_of_read? (hk : b.kind? = some k) (hspec : spec ∈ k.params)
    (hv : b.read? spec.param = some v) : spec.domain.kept? v = some v := by
  cases b with
  | unknown => cases hk
  | _ =>
    obtain rfl := Option.some.inj hk
    fin_cases hspec <;> obtain rfl := Option.some.inj hv <;>
      first
      | rfl
      | exact congrArg (Option.map ParamValue.ofUInt32) (ParamValue.uint32?_ofUInt32 _)

/-- A value is taken in just when it passes the check of a parameter that an editor may change. -/
theorem exists_set_eq_ok_iff : (∃ b', b.set name v = .ok b') ↔
    ∃ k, b.kind? = some k ∧ ∃ spec ∈ k.params, spec.param.name = name ∧
      spec.editable = true ∧ spec.check v = .ok () := by
  simp only [set_eq_ok_iff_exists, Kind.param?_eq_some_iff, ParamSpec.check_eq_ok_iff]
  constructor
  · rintro ⟨b', k, spec, hk, ⟨hspec, hname⟩, he, hv, -⟩
    exact ⟨k, hk, spec, hspec, hname, he, hv⟩
  · rintro ⟨k, hk, spec, hspec, hname, he, hv⟩
    exact ⟨_, k, spec, hk, ⟨hspec, hname⟩, he, hv, rfl⟩

/-- Put, then get. -/
theorem get?_of_set (h : b.set name v = .ok b') : ∃ k, b.kind? = some k ∧ ∃ spec ∈ k.params,
    spec.param.name = name ∧ ∃ w, spec.domain.kept? v = some w ∧ b'.get? name = some w ∧
      spec.check w = .ok () := by
  obtain ⟨k, spec, hk, hs, -, hv, rfl⟩ := set_eq_ok_iff_exists.mp h
  obtain ⟨hspec, hname⟩ := Kind.param?_eq_some_iff.mp hs
  obtain ⟨w, hw⟩ := Domain.exists_kept? hv
  refine ⟨k, hk, spec, hspec, hname, w, hw, ?_, ?_⟩
  · rw [get?_eq hs, read?_write hk hspec hv, hw]
  · exact ParamSpec.check_eq_ok_iff.mpr (Domain.rejection?_of_kept? hv hw)

/-- Two blocks of one outline are the same if they agree on a parameter and on all others. -/
theorem eq_of_read?_eq_of_ne {p : Param} (ho : b.outline = b'.outline)
    (hp : b.read? p = b'.read? p) (hq : ∀ q, q ≠ p → b.read? q = b'.read? q) : b = b' := by
  apply eq_of_read?_eq ho
  intro q
  by_cases h : q = p
  · rw [h, hp]
  · exact hq q h

/-- Get, then put. -/
theorem set_of_get? (hv : b.get? name = some v) (h : b.set name v = .ok b') : b' = b := by
  obtain ⟨k, spec, hk, hs, -, hin, rfl⟩ := set_eq_ok_iff_exists.mp h
  obtain ⟨hspec, -⟩ := Kind.param?_eq_some_iff.mp hs
  have hread : b.read? spec.param = some v := (get?_eq hs b).symm.trans hv
  apply eq_of_read?_eq_of_ne (outline_write b spec.param v)
  · rw [read?_write hk hspec hin, kept?_of_read? hk hspec hread, hread]
  · intro q hq
    exact read?_write_of_ne hq b v

/-- Put, then put. -/
theorem set_of_set (h : b.set name v = .ok b') (w : ParamValue) : b'.set name w = b.set name w := by
  obtain ⟨k, spec, hk, hs, he, hv, rfl⟩ := set_eq_ok_iff_exists.mp h
  obtain ⟨hspec, -⟩ := Kind.param?_eq_some_iff.mp hs
  have hk' : (b.write spec.param v).kind? = some k := (kind?_write b spec.param v).trans hk
  rw [set_of_editable hk' hs he, set_of_editable hk hs he]
  cases hw : spec.check w with
  | error e => rfl
  | ok =>
    have hin := ParamSpec.check_eq_ok_iff.mp hw
    have hsame : (b.write spec.param v).write spec.param w = b.write spec.param w := by
      apply eq_of_read?_eq_of_ne
      · rw [outline_write, outline_write, outline_write]
      · rw [read?_write hk' hspec hin, read?_write hk hspec hin]
      · intro q hq
        rw [read?_write_of_ne hq, read?_write_of_ne hq, read?_write_of_ne hq]
    exact congrArg Except.ok hsame

theorem get?_of_set_of_ne {other : String} (h : b.set name v = .ok b') (hne : other ≠ name) :
    b'.get? other = b.get? other := by
  obtain ⟨k, spec, hk, hs, -, -, rfl⟩ := set_eq_ok_iff_exists.mp h
  have hk' : (b.write spec.param v).kind? = some k := (kind?_write b spec.param v).trans hk
  cases hother : k.param? other with
  | none =>
    have hnone : ∀ c : Block, c.kind? = some k → c.get? other = none := by
      intro c hc
      apply get?_eq_none
      intro k' hk'
      obtain rfl := Option.some.inj (hc.symm.trans hk')
      exact hother
    rw [hnone _ hk', hnone b hk]
  | some spec' =>
    have hparam : spec'.param ≠ spec.param := by
      intro he
      obtain ⟨-, hname⟩ := Kind.param?_eq_some_iff.mp hs
      obtain ⟨-, hname'⟩ := Kind.param?_eq_some_iff.mp hother
      exact hne (hname'.symm.trans ((congrArg Param.name he).trans hname))
    rw [get?_eq hother, get?_eq hother, read?_write_of_ne hparam]

/-- A value is taken in just when its check passes. Behind that it is what is read, as the parameter
keeps it, the kind and all other parameters are as before, and writing again forgets it. When it is
refused, nothing is written. Every parameter is read when a block is looked through. -/
theorem checked_lens (b : Block) (name : String) (v : ParamValue) :
    ((∃ b', b.set name v = .ok b') ↔ ∃ k, b.kind? = some k ∧ ∃ spec ∈ k.params,
      spec.param.name = name ∧ spec.editable = true ∧ spec.check v = .ok ()) ∧
    (∀ b', b.set name v = .ok b' → (InPlace.setParam name v).run b = .ok () b' ∧
      (∃ k, b.kind? = some k ∧ ∃ spec ∈ k.params, spec.param.name = name ∧
        ∃ w, spec.domain.kept? v = some w ∧ b'.get? name = some w ∧ spec.check w = .ok ()) ∧
      b'.kind? = b.kind? ∧ (∀ other, other ≠ name → b'.get? other = b.get? other) ∧
      (b.get? name = some v → b' = b) ∧ ∀ w, b'.set name w = b.set name w) ∧
    (∀ e, b.set name v = .error e → (InPlace.setParam name v).run b = .error e b) ∧
    ∀ k, b.kind? = some k → ∀ spec ∈ k.params, ∃ w, b.get? spec.param.name = some w ∧
      ∀ why, (spec.param, why) ∈ b.rejections ↔
        spec.check w = .error (.invalidParameter spec.param.name why) := by
  refine ⟨exists_set_eq_ok_iff, ?_, ?_, ?_⟩
  · intro b' h
    obtain ⟨hkind, -⟩ := kind?_set h
    refine ⟨?_, get?_of_set h, hkind, fun _ => get?_of_set_of_ne h, fun hv => set_of_get? hv h,
      set_of_set h⟩
    rw [run_setParam, h]
    rfl
  · intro e h
    rw [run_setParam, h]
    rfl
  · intro k hk spec hspec
    obtain ⟨w, hw⟩ := exists_get? hk hspec
    exact ⟨w, hw, fun _ => mem_rejections_iff hk hspec hw⟩

end Block
end LayerGraph
