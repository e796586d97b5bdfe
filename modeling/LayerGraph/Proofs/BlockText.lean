import LayerGraph.Proofs.Contents
import LayerGraph.Proofs.JsonValues
import LayerGraph.Proofs.Records

namespace LayerGraph

theorem Decoder.uint32_ofNat (n : UInt32) : Decoder.uint32 (.int n.toNat) = .ok n := by
  have hn := n.toNat_lt
  unfold Decoder.uint32 Decoder.intBetween
  simp only
  split
  · exact congrArg Except.ok UInt32.ofNat_toNat
  · rename_i h
    simp only [Bool.and_eq_true, decide_eq_true_eq, not_and, not_lt] at h
    omega

theorem Decoder.float_float (x : Float) : Decoder.float (.float x) = .ok x := rfl

theorem Decoder.bool_bool (b : Bool) : Decoder.bool (.bool b) = .ok b := rfl

theorem Activation.decoder_name (a : Activation) : Activation.decoder (.string a.name) = .ok a := by
  cases a <;> rfl

theorem PoolType.decoder_name (t : PoolType) : PoolType.decoder (.string t.name) = .ok t := by
  cases t <;> rfl

theorem Optimizer.decoder_name (o : Optimizer) : Optimizer.decoder (.string o.name) = .ok o := by
  cases o <;> rfl

theorem Decoder.items_text (ss : List String) :
    Decoder.items Decoder.text (Document.ofItems (ss.map .string)) = .ok ss := by
  induction ss with
  | nil => rfl
  | cons s ss ih =>
    rw [List.map_cons, Document.ofItems, Decoder.items, ih]
    rfl

theorem Decoder.list_text (ss : List String) :
    Decoder.list Decoder.text (.ofJson (.ofNames ss)) = .ok ss := by
  simp only [Json.ofNames, Document.ofJson, Decoder.list, Decoder.items_text]
  rfl

section

open Record

theorem Dense.holds_toJson (p : Dense) :
    Dense.record.Holds [("sizeIn", .int p.sizeIn.toNat), ("sizeOut", .int p.sizeOut.toNat)] p :=
  have sizeIn := holds_map (holds_field rfl (Decoder.uint32_ofNat p.sizeIn))
  holds_seq sizeIn (ignores_map (ignores_field rfl))
    (holds_field rfl (Decoder.uint32_ofNat p.sizeOut))

theorem Hidden.holds_toJson (p : Hidden) :
    Hidden.record.Holds
      [("sizeIn", .int p.sizeIn.toNat), ("sizeOut", .int p.sizeOut.toNat),
       ("activation", .string p.activation.name)] p :=
  have sizeIn := holds_map (holds_field rfl (Decoder.uint32_ofNat p.sizeIn))
  have sizes := holds_seq sizeIn (ignores_map (ignores_field rfl))
    (holds_field rfl (Decoder.uint32_ofNat p.sizeOut))
  holds_seq sizes (ignores_seq (ignores_map (ignores_field rfl)) (ignores_field rfl))
    (holds_field rfl (Activation.decoder_name p.activation))

theorem Convolution.holds_toJson (p : Convolution) :
    Convolution.record.Holds
      [("sizeIn", .int p.sizeIn.toNat), ("sizeOut", .int p.sizeOut.toNat),
       ("kernelSize", .int p.kernelSize.toNat), ("padding", .int p.padding.toNat)] p :=
  have sizeIn := holds_map (holds_field rfl (Decoder.uint32_ofNat p.sizeIn))
  have sizes := holds_seq sizeIn (ignores_map (ignores_field rfl))
    (holds_field rfl (Decoder.uint32_ofNat p.sizeOut))
  have kernel := holds_seq sizes (ignores_seq (ignores_map (ignores_field rfl)) (ignores_field rfl))
    (holds_field rfl (Decoder.uint32_ofNat p.kernelSize))
  holds_seq kernel
    (ignores_seq (ignores_seq (ignores_map (ignores_field rfl)) (ignores_field rfl))
      (ignores_field rfl))
    (holds_field rfl (Decoder.uint32_ofNat p.padding))

theorem Pooling.holds_toJson (p : Pooling) :
    Pooling.record.Holds
      [("channels", .int p.channels.toNat), ("kernelSize", .int p.kernelSize.toNat),
       ("stride", .int p.stride.toNat), ("poolType", .string p.poolType.name)] p :=
  have channels := holds_map (holds_field rfl (Decoder.uint32_ofNat p.channels))
  have kernel := holds_seq channels (ignores_map (ignores_field rfl))
    (holds_field rfl (Decoder.uint32_ofNat p.kernelSize))
  have stride := holds_seq kernel (ignores_seq (ignores_map (ignores_field rfl)) (ignores_field rfl))
    (holds_field rfl (Decoder.uint32_ofNat p.stride))
  holds_seq stride
    (ignores_seq (ignores_seq (ignores_map (ignores_field rfl)) (ignores_field rfl))
      (ignores_field rfl))
    (holds_field rfl (PoolType.decoder_name p.poolType))

theorem Block.holds_classes (classes : List String) :
    Block.classesRecord.Holds [("classes", .ofJson (.ofNames classes))] classes :=
  holds_field rfl (Decoder.list_text classes)

namespace Training

/-- The members of settings, with the doubles as they were read. -/
def members (t : Training) (learningRate validationSplit : Document) : List (String × Document) :=
  [("epochs", .int t.epochs.toNat), ("batchSize", .int t.batchSize.toNat),
   ("learningRate", learningRate), ("optimizer", .string t.optimizer.name),
   ("validationSplit", validationSplit), ("shuffle", .bool t.shuffle)]

theorem holds_members (t : Training) :
    Training.record.Holds (t.members (.float t.learningRate) (.float t.validationSplit)) t :=
  have epochs := holds_map (holds_field rfl (Decoder.uint32_ofNat t.epochs))
  have batch := holds_seq epochs (ignores_map (ignores_field rfl))
    (holds_field rfl (Decoder.uint32_ofNat t.batchSize))
  have rate := holds_seq batch (ignores_seq (ignores_map (ignores_field rfl)) (ignores_field rfl))
    (holds_field rfl (Decoder.float_float t.learningRate))
  have optimizer := holds_seq rate
    (ignores_seq (ignores_seq (ignores_map (ignores_field rfl)) (ignores_field rfl))
      (ignores_field rfl))
    (holds_field rfl (Optimizer.decoder_name t.optimizer))
  have split := holds_seq optimizer
    (ignores_seq
      (ignores_seq (ignores_seq (ignores_map (ignores_field rfl)) (ignores_field rfl))
        (ignores_field rfl))
      (ignores_field rfl))
    (holds_field rfl (Decoder.float_float t.validationSplit))
  holds_seq split
    (ignores_seq
      (ignores_seq
        (ignores_seq (ignores_seq (ignores_map (ignores_field rfl)) (ignores_field rfl))
          (ignores_field rfl))
        (ignores_field rfl))
      (ignores_field rfl))
    (holds_field rfl (Decoder.bool_bool t.shuffle))

theorem rejects_learningRate {d : Document} {e : Fault} (hd : Decoder.float d = .error e) :
    Training.record.Rejects "learningRate" d :=
  rejects_seq_left <| rejects_seq_left <| rejects_seq_left <|
    rejects_seq_right (ignores_seq (ignores_map (ignores_field rfl)) (ignores_field rfl))
      (rejects_field rfl hd)

theorem rejects_validationSplit {d : Document} {e : Fault} (hd : Decoder.float d = .error e) :
    Training.record.Rejects "validationSplit" d :=
  rejects_seq_left <|
    rejects_seq_right
      (ignores_seq
        (ignores_seq (ignores_seq (ignores_map (ignores_field rfl)) (ignores_field rfl))
          (ignores_field rfl))
        (ignores_field rfl))
      (rejects_field rfl hd)

/-- A document that a float is found in is that float, when it was read of a printed one. -/
theorem float_ofFloat (x : Float) :
    (∃ e, Decoder.float (Document.ofFloat x) = .error e) ∨
      ∃ y, Document.ofFloat x = .float y := by
  rcases Document.ofFloat_cases x with hx | hx | hx
  · exact .inl ⟨.mismatch, by rw [hx]; rfl⟩
  · exact .inl ⟨.malformed, by rw [hx]; rfl⟩
  · exact .inr hx

/-- Settings come back from their text just when it keeps both of their doubles. -/
theorem decoder_members_iff (t : Training) :
    Training.decoder (.object (t.members (Document.ofFloat t.learningRate)
      (Document.ofFloat t.validationSplit)) .closed) = .ok t ↔
      Document.KeepsFloat t.learningRate ∧ Document.KeepsFloat t.validationSplit := by
  constructor
  · intro h
    rcases float_ofFloat t.learningRate with ⟨e, he⟩ | ⟨x, hx⟩
    · exact absurd h (members_of_rejects (List.mem_of_getElem? (i := 2) rfl)
        (rejects_learningRate he) _ _ _)
    rcases float_ofFloat t.validationSplit with ⟨e, he⟩ | ⟨y, hy⟩
    · exact absurd h (members_of_rejects (List.mem_of_getElem? (i := 4) rfl)
        (rejects_validationSplit he) _ _ _)
    -- with the doubles that were found the settings are read, and reading has one result
    let read : Training := { t with learningRate := x, validationSplit := y }
    have hread := decoder_of_holds (holds_members read)
    rw [hx, hy] at h
    have heq : t = read := Except.ok.inj (h.symm.trans hread)
    have hrate : t.learningRate = x := congrArg Training.learningRate heq
    have hsplit : t.validationSplit = y := congrArg Training.validationSplit heq
    unfold Document.KeepsFloat
    rw [hx, hy, hrate, hsplit]
    exact ⟨rfl, rfl⟩
  · rintro ⟨hrate, hsplit⟩
    rw [hrate, hsplit]
    exact decoder_of_holds (holds_members t)

theorem ofPrinted_toJson (t : Training) :
    Document.ofPrinted t.toJson = .object (t.members (Document.ofFloat t.learningRate)
      (Document.ofFloat t.validationSplit)) .closed := rfl

end Training

end

theorem Json.fits_ofUInt32 (n : UInt32) (depth : Nat) : (Json.ofUInt32 n).Fits depth := by
  have hn := n.toNat_lt
  simp only [Json.ofUInt32, Json.Fits]
  omega

theorem Json.itemsFit_ofNames (ns : List String) (depth : Nat) :
    Json.ItemsFit depth (ns.map .string) := by
  induction ns with
  | nil => trivial
  | cons n ns ih => exact ⟨trivial, ih⟩

theorem Json.decimals_ofNames (ns : List String) : (Json.ofNames ns).decimals = [] := by
  rw [ofNames, decimals]
  induction ns with
  | nil => rfl
  | cons n ns ih => simpa [itemDecimals, decimals] using ih

/-- An object with distinct keys nests one deeper than its members. -/
theorem Json.fits_object {ms : List (String × Json)} {depth : Nat}
    (hkeys : (ms.map (·.1)).Nodup) (hms : ∀ m ∈ ms, m.2.Fits depth) :
    (Json.object ms).Fits (depth + 1) := by
  simp only [Json.Fits]
  exact ⟨Nat.succ_pos depth, hkeys, Json.membersFit_iff.mpr hms⟩

theorem Training.fits_toJson (t : Training) (depth : Nat) : t.toJson.Fits (depth + 1) :=
  Json.fits_object (by simp) (by simp [Json.fits_ofUInt32, Json.Fits])

namespace Block

/-- Data of a kind that is not registered came as JSON text. -/
def Storable : Block → Prop
  | .unknown kind data => Kind.ofName? kind = none ∧ data.Fits Document.nestingLimit
  | _ => True

/-- The data of a registered kind nest two deep. -/
theorem data_fits {b : Block} {depth : Nat}
    (hunknown : ∀ kind data, b = .unknown kind data → data.Fits (depth + 2)) :
    b.data.Fits (depth + 2) := by
  cases b with
  | unknown kind data => exact hunknown kind data rfl
  | input p | output p =>
    exact Json.fits_object (by simp) (by simp [Json.fits_ofUInt32])
  | hidden p =>
    exact Json.fits_object (by simp) (by simp [Json.fits_ofUInt32, Activation.toJson, Json.Fits])
  | convolutional p =>
    exact Json.fits_object (by simp) (by simp [Json.fits_ofUInt32])
  | pooling p =>
    exact Json.fits_object (by simp) (by simp [Json.fits_ofUInt32, Json.Fits])
  | classifier classes =>
    apply Json.fits_object (by simp)
    simpa [Json.ofNames, Json.Fits] using Json.itemsFit_ofNames classes _
  | training t => exact t.fits_toJson _
  | start => exact Json.fits_object (by simp) (by simp)

theorem Storable.data_fits {b : Block} (hb : b.Storable) : b.data.Fits Document.nestingLimit := by
  have hfits : b.data.Fits (125 + 2) := by
    apply Block.data_fits
    rintro kind data rfl
    exact hb.2
  exact hfits

/-- A block has the kind that its type string names, when that is registered. -/
theorem Storable.ofName?_kindName {b : Block} (hb : b.Storable) :
    Kind.ofName? b.kindName = b.kind? := by
  cases b with
  | unknown kind data => exact hb.1
  | _ => rfl

theorem ofRaw_eq_ok_iff {b b' : Block} {k : Kind} {data : Json}
    (hb : Kind.ofName? b.kindName = b.kind?) (hk : b.kind? = some k) :
    Block.ofRaw ⟨b.kindName, data⟩ = .ok b' ↔ ofData? k data = some b' := by
  unfold Block.ofRaw
  simp only [hb, hk]
  cases ofData? k data <;> simp

theorem ofRaw_unknown {kind : String} (hkind : Kind.ofName? kind = none) (data : Json) :
    Block.ofRaw ⟨kind, data⟩ = .ok (.unknown kind data) := by
  unfold Block.ofRaw
  simp only [hkind]

/-- Data of a registered kind are its parameters. -/
theorem ofData?_data {b : Block} {k : Kind} (hk : b.kind? = some k) :
    ofData? k b.data = some b := by
  have hread : ∀ {α : Type} (r : Record α) (ms : List (String × Document)) (a : α) (f : α → Block),
      r.Holds ms a → f <$> (r.decoder (.object ms .closed)).toOption = some (f a) := by
    intro α r ms a f h
    rw [Record.decoder_of_holds h]
    rfl
  cases b with
  | input p =>
    obtain rfl : Kind.input = k := Option.some.inj hk
    exact hread _ _ p .input p.holds_toJson
  | output p =>
    obtain rfl : Kind.output = k := Option.some.inj hk
    exact hread _ _ p .output p.holds_toJson
  | hidden p =>
    obtain rfl : Kind.hidden = k := Option.some.inj hk
    exact hread _ _ p .hidden p.holds_toJson
  | convolutional p =>
    obtain rfl : Kind.convolutional = k := Option.some.inj hk
    exact hread _ _ p .convolutional p.holds_toJson
  | pooling p =>
    obtain rfl : Kind.pooling = k := Option.some.inj hk
    exact hread _ _ p .pooling p.holds_toJson
  | classifier classes =>
    obtain rfl : Kind.classifier = k := Option.some.inj hk
    exact hread _ _ classes .classifier (holds_classes classes)
  | training t =>
    obtain rfl : Kind.training = k := Option.some.inj hk
    exact hread _ _ t .training t.holds_members
  | start =>
    obtain rfl : Kind.start = k := Option.some.inj hk
    rfl
  | unknown kind data => cases hk

/-- A block is made again of its type string and data. -/
theorem ofRaw_toRaw {b : Block} (hb : Kind.ofName? b.kindName = b.kind?) :
    Block.ofRaw b.toRaw = .ok b := by
  cases hk : b.kind? with
  | some k => exact (ofRaw_eq_ok_iff hb hk).mpr (ofData?_data hk)
  | none =>
    cases b with
    | unknown kind data => exact ofRaw_unknown hb data
    | _ => cases hk

/-- The doubles that the data of a block have in their text. -/
def decimals (b : Block) : List Float := b.data.decimals

theorem decimals_training (t : Training) :
    (Block.training t).decimals = [t.learningRate, t.validationSplit] := rfl

theorem decimals_eq_nil {b : Block} (htraining : ∀ t, b ≠ .training t)
    (hunknown : ∀ kind data, b ≠ .unknown kind data) : b.decimals = [] := by
  cases b with
  | training t => exact absurd rfl (htraining t)
  | unknown kind data => exact absurd rfl (hunknown kind data)
  | classifier classes =>
    simp [decimals, data, Json.decimals, Json.memberDecimals, Json.decimals_ofNames]
  | _ => rfl

theorem decode_of_ofData? {data : Json} {t : Training}
    (h : ofData? .training data = some (.training t)) (hnull : data ≠ .null) :
    Training.decoder.decode? data = some t := by
  unfold ofData? at h
  rw [if_neg hnull] at h
  obtain ⟨t', ht', he⟩ := Option.map_eq_some_iff.mp h
  rw [ht', training.inj he]

theorem keeps_of_ofText_toJson (t : Training) {data : Json}
    (hdata : Decoder.ofText Document.json t.toJson.text = .ok data)
    (hread : ofData? .training data = some (.training t)) :
    Document.KeepsFloat t.learningRate ∧ Document.KeepsFloat t.validationSplit := by
  rw [Decoder.ofText_text _ (t.fits_toJson _)] at hdata
  have hsame : Document.ofJson data = Document.ofPrinted t.toJson :=
    Document.ofJson_eq_ofPrinted (t.fits_toJson 0) hdata
  -- null would stand for settings by default
  have hnull : data ≠ .null := by
    rintro rfl
    rw [t.ofPrinted_toJson] at hsame
    cases hsame
  have hsome := decode_of_ofData? hread hnull
  unfold Decoder.decode? at hsome
  rw [hsame, t.ofPrinted_toJson] at hsome
  apply t.decoder_members_iff.mp
  cases hd : Training.decoder (.object (t.members (Document.ofFloat t.learningRate)
      (Document.ofFloat t.validationSplit)) .closed) with
  | error e =>
    rw [hd] at hsome
    cases hsome
  | ok t' =>
    rw [hd] at hsome
    exact congrArg Except.ok (Option.some.inj hsome)

/-- The text of the data gives the block again just when it keeps the doubles in them. -/
theorem ofText_data_iff {b : Block} (hb : b.Storable) :
    (∃ data, Decoder.ofText Document.json b.data.text = .ok data ∧
      Block.ofRaw ⟨b.kindName, data⟩ = .ok b) ↔ ∀ x ∈ b.decimals, Document.KeepsFloat x := by
  have hkept := Decoder.ofText_json_text_iff hb.data_fits
  constructor
  · rintro ⟨data, hdata, hraw⟩
    cases b with
    | unknown kind own =>
      rw [kindName, ofRaw_unknown hb.1, Except.ok.injEq, unknown.injEq] at hraw
      rw [hraw.2] at hdata
      exact hkept.mp hdata
    | training t =>
      have h := keeps_of_ofText_toJson t hdata ((ofRaw_eq_ok_iff hb.ofName?_kindName rfl).mp hraw)
      rw [decimals_training]
      simpa using h
    | _ =>
      -- all other data are integers and names
      rw [decimals_eq_nil (by simp) (by simp)]
      simp
  · intro h
    exact ⟨b.data, hkept.mpr h, ofRaw_toRaw hb.ofName?_kindName⟩

theorem kind?_of_ofData? {k : Kind} {data : Json} {b : Block} (h : ofData? k data = some b) :
    b.kind? = some k := by
  have hkind : ∀ {α : Type} (f : α → Block) (a : Option α), f <$> a = some b →
      (∀ a, (f a).kind? = some k) → b.kind? = some k := by
    intro α f a hfa hf
    obtain ⟨x, -, rfl⟩ := Option.map_eq_some_iff.mp hfa
    exact hf x
  cases k with
  | start =>
    obtain rfl : Block.start = b := Option.some.inj h
    rfl
  | _ => exact hkind _ _ h fun _ => rfl

/-- What is made of data that were read can be stored. -/
theorem storable_of_ofRaw {r : RawBlock} {b : Block} (h : Block.ofRaw r = .ok b)
    (hr : r.data.Fits Document.nestingLimit) : b.Storable := by
  cases hk : Kind.ofName? r.kind with
  | none =>
    rw [show r = ⟨r.kind, r.data⟩ from rfl, ofRaw_unknown hk] at h
    obtain rfl := Except.ok.inj h
    exact ⟨hk, hr⟩
  | some k =>
    have hb : b.kind? = some k := by
      apply kind?_of_ofData?
      unfold Block.ofRaw at h
      simp only [hk] at h
      cases hd : ofData? k r.data with
      | none => simp [hd] at h
      | some b' => simpa [hd] using h
    cases b with
    | unknown kind data => cases hb
    | _ => trivial

end Block

theorem StoredBlock.toNode_eq_ok_iff {row : StoredBlock} {n : Node} :
    row.toNode = .ok n ↔ ∃ data, Decoder.ofText Document.json row.data = .ok data ∧
      Block.ofRaw ⟨row.kind, data⟩ = .ok n.block ∧ row.id = n.id ∧
      row.sequenceIndex = n.sequenceIndex ∧ row.label = n.label ∧ row.position = n.position := by
  unfold toNode
  cases hd : Decoder.ofText Document.json row.data with
  | error e => simp [bind, Except.bind, Except.mapError]
  | ok data =>
    cases hb : Block.ofRaw ⟨row.kind, data⟩ with
    | error e => simp [hb, bind, Except.bind, Except.mapError]
    | ok b =>
      cases n
      simp only [hb, bind, Except.bind, Except.mapError, pure, Except.pure, Except.ok.injEq,
        Node.mk.injEq, exists_eq_left']
      tauto

theorem StoredBlock.storable_of_toNode {row : StoredBlock} {n : Node} (h : row.toNode = .ok n) :
    n.block.Storable := by
  obtain ⟨data, hdata, hraw, -⟩ := toNode_eq_ok_iff.mp h
  exact Block.storable_of_ofRaw hraw (Decoder.fits_of_ofText hdata)

/-- What rows keep of a node is all of it. -/
def Node.Kept (fmt : RowFormat) (n : Node) : Prop :=
  n.position.bind fmt.position = n.position ∧ ∀ x ∈ n.block.decimals, Document.KeepsFloat x

/-- The row of a node has the node just when it keeps the position and the doubles. -/
theorem toNode_block_ofNode_iff {fmt : RowFormat} {n : Node} (hn : n.block.Storable) :
    (fmt.block (.ofNode n)).toNode = .ok n ↔ n.Kept fmt := by
  rw [StoredBlock.toNode_eq_ok_iff, Node.Kept, ← Block.ofText_data_iff hn]
  simp only [RowFormat.block, StoredBlock.ofNode, true_and]
  constructor
  · rintro ⟨data, hdata, hraw, hposition⟩
    exact ⟨hposition, data, hdata, hraw⟩
  · rintro ⟨hposition, data, hdata, hraw⟩
    exact ⟨data, hdata, hraw, hposition⟩

end LayerGraph
