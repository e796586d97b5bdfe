import LayerGraph.Proofs.Contents
import LayerGraph.Proofs.Domains

namespace LayerGraph

attribute [ext] Dense Hidden Convolution Pooling Training

/-- The value as a parameter of the domain keeps it. -/
def Domain.kept? : Domain → ParamValue → Option ParamValue
  | .positiveInt, v | .nonNegativeInt, v => v.uint32?.map .ofUInt32
  | .positiveFloat, v | .fraction, v => v.float?.map .float
  | .choice _, v => v.text?.map .text
  | .flag, v => v.bool?.map .bool
  | .names, v => v.names?.map .names

theorem ParamValue.ofUInt32_inj {m n : UInt32} : ofUInt32 m = ofUInt32 n ↔ m = n := by
  constructor
  · intro h
    have hw := congrArg uint32? h
    rwa [uint32?_ofUInt32, uint32?_ofUInt32, Option.some.injEq] at hw
  · rintro rfl
    rfl

theorem Activation.name_inj {a b : Activation} : a.name = b.name ↔ a = b := by
  cases a <;> cases b <;> decide

theorem PoolType.name_inj {t u : PoolType} : t.name = u.name ↔ t = u := by
  cases t <;> cases u <;> decide

theorem Optimizer.name_inj {o q : Optimizer} : o.name = q.name ↔ o = q := by
  cases o <;> cases q <;> decide

/-- What is in the domain has the type that the domain is about. -/
theorem Domain.exists_kept? {d : Domain} {v : ParamValue} (hv : d.rejection? v = none) :
    ∃ w, d.kept? v = some w := by
  cases d with
  | positiveInt | nonNegativeInt =>
    cases hn : v.uint32? with
    | none => simp [rejection?, hn] at hv
    | some n => exact ⟨_, congrArg (Option.map _) hn⟩
  | positiveFloat | fraction =>
    cases hx : v.float? with
    | none => simp [rejection?, hx] at hv
    | some x => exact ⟨_, congrArg (Option.map _) hx⟩
  | choice options =>
    cases hs : v.text? with
    | none => simp [rejection?, hs] at hv
    | some s => exact ⟨_, congrArg (Option.map _) hs⟩
  | flag =>
    cases hb : v.bool? with
    | none => simp [rejection?, hb] at hv
    | some b => exact ⟨_, congrArg (Option.map _) hb⟩
  | names =>
    cases hns : v.names? with
    | none => simp [rejection?, hns] at hv
    | some ns => exact ⟨_, congrArg (Option.map _) hns⟩

theorem mem_of_rejection?_choice {options : List String} {v : ParamValue}
    (hv : Domain.rejection? (.choice options) v = none) : ∃ s ∈ options, v = .text s := by
  cases v with
  | text s => exact ⟨s, by simpa [Domain.rejection?, ParamValue.text?] using hv, rfl⟩
  | _ => simp [Domain.rejection?, ParamValue.text?] at hv

namespace Kind

theorem param_names_nodup (k : Kind) : (k.params.map (·.param.name)).Nodup := by
  cases k <;> decide

theorem param?_eq_some_iff {k : Kind} {name : String} {spec : ParamSpec} :
    k.param? name = some spec ↔ spec ∈ k.params ∧ spec.param.name = name := by
  constructor
  · intro hs
    exact ⟨List.mem_of_find?_eq_some hs, by simpa using List.find?_some hs⟩
  · rintro ⟨hspec, rfl⟩
    exact find?_eq_some_of_nodup k.param_names_nodup hspec

end Kind

namespace Block

variable {b : Block} {k : Kind} {p q : Param} {name : String} {v : ParamValue} {spec : ParamSpec}

theorem get?_eq (hs : k.param? name = some spec) (b : Block) : b.get? name = b.read? spec.param := by
  obtain ⟨-, rfl⟩ := Kind.param?_eq_some_iff.mp hs
  exact get?_name b spec.param

theorem exists_param?_of_get? (hv : b.get? name = some v) :
    ∃ k spec, b.kind? = some k ∧ k.param? name = some spec := by
  unfold get? at hv
  split at hv <;> first | exact ⟨_, _, rfl, rfl⟩ | cases hv

/-- Writes a value of the parameter's type; anything else changes nothing. -/
def write (b : Block) (param : Param) (v : ParamValue) : Block :=
  let written : Option Block := match b, param with
    | .input p, .sizeIn => return .input { p with sizeIn := ← v.uint32? }
    | .input p, .sizeOut => return .input { p with sizeOut := ← v.uint32? }
    | .output p, .sizeIn => return .output { p with sizeIn := ← v.uint32? }
    | .output p, .sizeOut => return .output { p with sizeOut := ← v.uint32? }
    | .hidden p, .sizeIn => return .hidden { p with sizeIn := ← v.uint32? }
    | .hidden p, .sizeOut => return .hidden { p with sizeOut := ← v.uint32? }
    | .hidden p, .activation =>
      return .hidden { p with activation := ← v.text?.bind Activation.ofName? }
    | .convolutional p, .sizeIn => return .convolutional { p with sizeIn := ← v.uint32? }
    | .convolutional p, .sizeOut => return .convolutional { p with sizeOut := ← v.uint32? }
    | .convolutional p, .kernelSize => return .convolutional { p with kernelSize := ← v.uint32? }
    | .convolutional p, .padding => return .convolutional { p with padding := ← v.uint32? }
    | .pooling p, .channels => return .pooling { p with channels := ← v.uint32? }
    | .pooling p, .kernelSize => return .pooling { p with kernelSize := ← v.uint32? }
    | .pooling p, .stride => return .pooling { p with stride := ← v.uint32? }
    | .pooling p, .poolType =>
      return .pooling { p with poolType := ← v.text?.bind PoolType.ofName? }
    | .classifier _, .classes => return .classifier (← v.names?)
    | .training p, .epochs => return .training { p with epochs := ← v.uint32? }
    | .training p, .batchSize => return .training { p with batchSize := ← v.uint32? }
    | .training p, .learningRate => return .training { p with learningRate := ← v.float? }
    | .training p, .optimizer =>
      return .training { p with optimizer := ← v.text?.bind Optimizer.ofName? }
    | .training p, .validationSplit => return .training { p with validationSplit := ← v.float? }
    | .training p, .shuffle => return .training { p with shuffle := ← v.bool? }
    | _, _ => none
  written.getD b

/-- What passed its check is written whole: no fallback is used, and the names that a block is
written by are those of the registry. -/
theorem writeChecked_eq (hk : b.kind? = some k) (hs : k.param? name = some spec)
    (he : spec.editable = true) (hv : spec.domain.rejection? v = none) :
    b.writeChecked name v = b.write spec.param v := by
  obtain ⟨hspec, rfl⟩ := Kind.param?_eq_some_iff.mp hs
  cases b with
  | unknown => cases hk
  | _ =>
    obtain rfl := Option.some.inj hk
    fin_cases hspec
    all_goals
      obtain ⟨w, hw⟩ := Domain.exists_kept? hv
      first
      | exact absurd he (by decide)
      | obtain ⟨n, hn, rfl⟩ := Option.map_eq_some_iff.mp hw
        simp [sizeSpec, Param.name, writeChecked, write, hn]
        done
      | obtain ⟨s, hs, rfl⟩ := mem_of_rejection?_choice hv
        fin_cases hs <;> rfl

theorem set_of_not_editable (hk : b.kind? = some k) (hs : k.param? name = some spec)
    (he : spec.editable = false) : b.set name v = .error (.readOnlyParameter k.name name) := by
  unfold set
  simp only [hk, hs, he]
  rfl

theorem set_of_editable (hk : b.kind? = some k) (hs : k.param? name = some spec)
    (he : spec.editable = true) :
    b.set name v = (spec.check v).map fun _ => b.write spec.param v := by
  unfold set
  simp only [hk, hs, he]
  unfold ParamSpec.check
  cases hv : spec.domain.rejection? v with
  | some why => rfl
  | none => exact congrArg Except.ok (writeChecked_eq hk hs he hv)

theorem set_eq_ok_iff {b' : Block} (hk : b.kind? = some k) (hs : k.param? name = some spec) :
    b.set name v = .ok b' ↔
      spec.editable = true ∧ spec.domain.rejection? v = none ∧ b' = b.write spec.param v := by
  cases he : spec.editable with
  | false => simp [set_of_not_editable hk hs he]
  | true =>
    rw [set_of_editable hk hs he, ParamSpec.check]
    cases spec.domain.rejection? v <;> simp [Except.map, eq_comm]

/-- A value is taken in just when there is a parameter for it and nothing refuses it. -/
theorem set_eq_ok_iff_exists {b' : Block} : b.set name v = .ok b' ↔ ∃ k spec,
    b.kind? = some k ∧ k.param? name = some spec ∧ spec.editable = true ∧
      spec.domain.rejection? v = none ∧ b' = b.write spec.param v := by
  constructor
  · intro h
    cases hk : b.kind? with
    | none => simp [set, hk] at h
    | some k =>
      cases hs : k.param? name with
      | none => simp [set, hk, hs] at h
      | some spec => exact ⟨k, spec, rfl, hs, (set_eq_ok_iff hk hs).mp h⟩
  · rintro ⟨k, spec, hk, hs, h⟩
    exact (set_eq_ok_iff hk hs).mpr h

/-- What is read of a block is what was written, as its parameter keeps it. -/
theorem read?_write (hk : b.kind? = some k) (hspec : spec ∈ k.params)
    (hv : spec.domain.rejection? v = none) :
    (b.write spec.param v).read? spec.param = spec.domain.kept? v := by
  cases b with
  | unknown => cases hk
  | _ =>
    obtain rfl := Option.some.inj hk
    fin_cases hspec
    all_goals
      obtain ⟨w, hw⟩ := Domain.exists_kept? hv
      first
      | obtain ⟨n, hn, rfl⟩ := Option.map_eq_some_iff.mp hw
        simp [sizeSpec, write, Domain.kept?, hn, read?]
        done
      | obtain ⟨s, hs, rfl⟩ := mem_of_rejection?_choice hv
        fin_cases hs <;> rfl

/-- A write replaces the block by another one or leaves it, whatever is looked at. -/
theorem apply_getD_bind {α β : Type} (r : Block → β) (a : Option α) {f : α → Block}
    (hf : ∀ x, r (f x) = r b) : r ((a.bind fun x => some (f x)).getD b) = r b := by
  cases a with
  | none => rfl
  | some x => exact hf x

theorem kind?_write (b : Block) (p : Param) (v : ParamValue) :
    (b.write p v).kind? = b.kind? := by
  cases b <;> cases p <;> first | rfl | exact apply_getD_bind kind? _ fun _ => rfl

theorem read?_write_of_ne (hq : q ≠ p) (b : Block) (v : ParamValue) :
    (b.write p v).read? q = b.read? q := by
  cases b <;> cases p <;>
    first
    | rfl
    | exact apply_getD_bind (read? · q) _ fun _ => by
        cases q <;> first | rfl | exact absurd rfl hq

theorem sizeOut?_write (hp : p ≠ .sizeOut) (b : Block) (v : ParamValue) :
    (b.write p v).sizeOut? = b.sizeOut? := by
  cases b <;> cases p <;>
    first | rfl | exact absurd rfl hp | exact apply_getD_bind sizeOut? _ fun _ => rfl

/-- The block with everything as it starts out, if it is of a registered kind. -/
def outline (b : Block) : Block := (b.kind?.map ofKind).getD b

theorem outline_write (b : Block) (p : Param) (v : ParamValue) :
    (b.write p v).outline = b.outline := by
  cases b <;> cases p <;> first | rfl | exact apply_getD_bind outline _ fun _ => rfl

theorem eq_of_read?_eq {a b : Block} (ho : a.outline = b.outline)
    (hread : ∀ p, a.read? p = b.read? p) : a = b := by
  have hkind : ∀ c : Block, c.outline.kind? = c.kind? := by
    intro c
    cases c <;> rfl
  have hk : a.kind? = b.kind? := by rw [← hkind, ho, hkind]
  cases a with
  | unknown kind data =>
    cases b <;> cases hk
    exact ho
  | start =>
    cases b <;> cases hk
    rfl
  | classifier classes =>
    cases b <;> cases hk
    simpa [read?] using hread .classes
  | input x | output x =>
    cases b <;> cases hk
    have hin := hread .sizeIn
    have hout := hread .sizeOut
    simp only [read?, Option.some.injEq, ParamValue.ofUInt32_inj] at hin hout
    exact congrArg _ (Dense.ext hin hout)
  | hidden x =>
    cases b <;> cases hk
    have hin := hread .sizeIn
    have hout := hread .sizeOut
    have hactivation := hread .activation
    simp only [read?, Option.some.injEq, ParamValue.ofUInt32_inj, ParamValue.text.injEq,
      Activation.name_inj] at hin hout hactivation
    exact congrArg _ (Hidden.ext hin hout hactivation)
  | convolutional x =>
    cases b <;> cases hk
    have hin := hread .sizeIn
    have hout := hread .sizeOut
    have hkernel := hread .kernelSize
    have hpadding := hread .padding
    simp only [read?, Option.some.injEq, ParamValue.ofUInt32_inj] at hin hout hkernel hpadding
    exact congrArg _ (Convolution.ext hin hout hkernel hpadding)
  | pooling x =>
    cases b <;> cases hk
    have hchannels := hread .channels
    have hkernel := hread .kernelSize
    have hstride := hread .stride
    have htype := hread .poolType
    simp only [read?, Option.some.injEq, ParamValue.ofUInt32_inj, ParamValue.text.injEq,
      PoolType.name_inj] at hchannels hkernel hstride htype
    exact congrArg _ (Pooling.ext hchannels hkernel hstride htype)
  | training x =>
    cases b <;> cases hk
    have hepochs := hread .epochs
    have hbatch := hread .batchSize
    have hrate := hread .learningRate
    have hoptimizer := hread .optimizer
    have hsplit := hread .validationSplit
    have hshuffle := hread .shuffle
    simp only [read?, Option.some.injEq, ParamValue.ofUInt32_inj, ParamValue.text.injEq,
      ParamValue.float.injEq, ParamValue.bool.injEq, Optimizer.name_inj]
      at hepochs hbatch hrate hoptimizer hsplit hshuffle
    exact congrArg _ (Training.ext hepochs hbatch hrate hoptimizer hsplit hshuffle)

end Block
end LayerGraph
