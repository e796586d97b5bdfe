import LayerGraph.Block
import Mathlib

namespace LayerGraph

/-- Settings that a training can be run with. -/
@[mk_iff]
structure Training.InDomain (t : Training) : Prop where
  epochs : 1 ≤ t.epochs
  batchSize : 1 ≤ t.batchSize
  learningRate : t.learningRate.isFinite = true ∧ 0 < t.learningRate
  validationSplit : t.validationSplit.isFinite = true ∧ 0 < t.validationSplit ∧
    t.validationSplit < 1

/-- Counts are positive and names are not blank; only a padding may be zero. -/
def Block.InDomain : Block → Prop
  | .input p | .output p => 1 ≤ p.sizeIn ∧ 1 ≤ p.sizeOut
  | .hidden p => 1 ≤ p.sizeIn ∧ 1 ≤ p.sizeOut
  | .convolutional p => 1 ≤ p.sizeIn ∧ 1 ≤ p.sizeOut ∧ 1 ≤ p.kernelSize
  | .pooling p => 1 ≤ p.channels ∧ 1 ≤ p.kernelSize ∧ 1 ≤ p.stride
  | .classifier classes => ∀ name ∈ classes, isBlankText name = false
  | .training t => t.InDomain
  | .start | .unknown _ _ => True

theorem one_le_iff_ne_zero {n : UInt32} : 1 ≤ n ↔ n ≠ 0 := by
  rw [UInt32.le_iff_toNat_le, ne_eq, ← UInt32.toNat_inj]
  exact Nat.one_le_iff_ne_zero

/-- The values of a domain, whichever way an editor submits them. -/
def Domain.Contains (d : Domain) (v : ParamValue) : Prop :=
  match d with
  | .positiveInt => ∃ n, v.uint32? = some n ∧ 1 ≤ n
  | .nonNegativeInt => ∃ n, v.uint32? = some n
  | .positiveFloat => ∃ x, v.float? = some x ∧ x.isFinite = true ∧ 0 < x
  | .fraction => ∃ x, v.float? = some x ∧ x.isFinite = true ∧ 0 < x ∧ x < 1
  | .choice options => ∃ s ∈ options, v.text? = some s
  | .flag => ∃ b, v.bool? = some b
  | .names => ∃ ns, v.names? = some ns ∧ ∀ name ∈ ns, isBlankText name = false

theorem ParamValue.uint32?_ofUInt32 (n : UInt32) : (ofUInt32 n).uint32? = some n := by
  have hn := n.toNat_lt
  simp [ofUInt32, uint32?, hn]

namespace Domain

theorem rejection?_eq_none_iff {d : Domain} {v : ParamValue} :
    d.rejection? v = none ↔ d.Contains v := by
  cases d with
  | positiveInt | nonNegativeInt =>
    cases hv : v.uint32? <;> simp [rejection?, Contains, hv, one_le_iff_ne_zero]
  | positiveFloat | fraction => cases hv : v.float? <;> simp [rejection?, Contains, hv, and_assoc]
  | choice options => cases hv : v.text? <;> simp [rejection?, Contains, hv]
  | flag => cases hv : v.bool? <;> simp [rejection?, Contains, hv]
  | names => cases hv : v.names? <;> simp [rejection?, Contains, hv]

@[simp] theorem rejection?_positiveInt (n : UInt32) :
    rejection? .positiveInt (.ofUInt32 n) = none ↔ 1 ≤ n := by
  simp [rejection?, ParamValue.uint32?_ofUInt32, one_le_iff_ne_zero]

@[simp] theorem rejection?_nonNegativeInt (n : UInt32) :
    rejection? .nonNegativeInt (.ofUInt32 n) = none := by
  simp [rejection?, ParamValue.uint32?_ofUInt32]

@[simp] theorem rejection?_positiveFloat (x : Float) :
    rejection? .positiveFloat (.float x) = none ↔ x.isFinite = true ∧ 0 < x := by
  simp [rejection?, ParamValue.float?]

@[simp] theorem rejection?_fraction (x : Float) :
    rejection? .fraction (.float x) = none ↔ x.isFinite = true ∧ 0 < x ∧ x < 1 := by
  simp [rejection?, ParamValue.float?, and_assoc]

theorem rejection?_choice {options : List String} {s : String} (hs : s ∈ options) :
    rejection? (.choice options) (.text s) = none := by
  simp [rejection?, ParamValue.text?, hs]

@[simp] theorem rejection?_activation (a : Activation) :
    rejection? (.choice activations) (.text a.name) = none :=
  rejection?_choice (by cases a <;> decide)

@[simp] theorem rejection?_poolType (t : PoolType) :
    rejection? (.choice poolTypes) (.text t.name) = none :=
  rejection?_choice (by cases t <;> decide)

@[simp] theorem rejection?_optimizer (o : Optimizer) :
    rejection? (.choice optimizers) (.text o.name) = none :=
  rejection?_choice (by cases o <;> decide)

@[simp] theorem rejection?_flag (b : Bool) : rejection? .flag (.bool b) = none := rfl

@[simp] theorem rejection?_names (ns : List String) :
    rejection? .names (.names ns) = none ↔ ∀ name ∈ ns, isBlankText name = false := by
  simp [rejection?, ParamValue.names?]

end Domain

namespace Block

def read? : Block → Param → Option ParamValue
  | .input p, .sizeIn | .output p, .sizeIn => some (.ofUInt32 p.sizeIn)
  | .input p, .sizeOut | .output p, .sizeOut => some (.ofUInt32 p.sizeOut)
  | .hidden p, .sizeIn => some (.ofUInt32 p.sizeIn)
  | .hidden p, .sizeOut => some (.ofUInt32 p.sizeOut)
  | .hidden p, .activation => some (.text p.activation.name)
  | .convolutional p, .sizeIn => some (.ofUInt32 p.sizeIn)
  | .convolutional p, .sizeOut => some (.ofUInt32 p.sizeOut)
  | .convolutional p, .kernelSize => some (.ofUInt32 p.kernelSize)
  | .convolutional p, .padding => some (.ofUInt32 p.padding)
  | .pooling p, .channels => some (.ofUInt32 p.channels)
  | .pooling p, .kernelSize => some (.ofUInt32 p.kernelSize)
  | .pooling p, .stride => some (.ofUInt32 p.stride)
  | .pooling p, .poolType => some (.text p.poolType.name)
  | .classifier classes, .classes => some (.names classes)
  | .training p, .epochs => some (.ofUInt32 p.epochs)
  | .training p, .batchSize => some (.ofUInt32 p.batchSize)
  | .training p, .learningRate => some (.float p.learningRate)
  | .training p, .optimizer => some (.text p.optimizer.name)
  | .training p, .validationSplit => some (.float p.validationSplit)
  | .training p, .shuffle => some (.bool p.shuffle)
  | _, _ => none

/-- The names that a block is read by are those of the registry. -/
@[simp] theorem get?_name (b : Block) (p : Param) : b.get? p.name = b.read? p := by
  cases b <;> cases p <;> rfl

theorem isSome_read? {b : Block} {k : Kind} (hk : b.kind? = some k) :
    ∀ spec ∈ k.params, (b.read? spec.param).isSome = true := by
  cases b with
  | unknown kind data => cases hk
  | _ =>
    obtain rfl := Option.some.inj hk
    simp [Kind.params, sizeSpec, read?]

/-- No parameter is rejected just when each is missing or in its domain. -/
theorem rejections_eq_nil_iff_forall {b : Block} {k : Kind} (hk : b.kind? = some k) :
    b.rejections = [] ↔
      ∀ spec ∈ k.params, ∀ v, b.read? spec.param = some v → spec.domain.rejection? v = none := by
  unfold rejections
  rw [hk, List.filterMap_eq_nil_iff]
  apply forall₂_congr
  intro spec _
  rw [get?_name]
  cases b.read? spec.param with
  | none => simp
  | some v => cases hv : spec.domain.rejection? v <;> simp [hv]

theorem rejections_eq_nil_iff (b : Block) : b.rejections = [] ↔ b.InDomain := by
  cases hk : b.kind? with
  | none =>
    cases b with
    | unknown kind data => exact iff_of_true rfl trivial
    | _ => cases hk
  | some k =>
    rw [rejections_eq_nil_iff_forall hk]
    cases b with
    | unknown kind data => cases hk
    | _ =>
      obtain rfl := Option.some.inj hk
      simp [Kind.params, sizeSpec, read?, InDomain, Training.inDomain_iff]

end Block

theorem Training.validate_eq_ok_iff {t : Training} : t.validate = .ok () ↔ t.InDomain := by
  have hblock : (Block.training t).rejections = [] ↔ t.InDomain := Block.rejections_eq_nil_iff _
  rw [← hblock, ← List.head?_eq_none_iff]
  unfold validate
  cases (Block.training t).rejections.head? <;> simp

end LayerGraph
