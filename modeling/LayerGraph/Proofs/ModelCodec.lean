import LayerGraph.Model
import LayerGraph.Proofs.DocumentCodec

namespace LayerGraph

namespace Decoder

variable {α : Type} {dec : Decoder α} {d : Document} {a : α} {as : List (String × α)}

/-- What a decoder gives is taken when those before it all fail. -/
theorem firstOf_eq_ok (before after : List (Decoder α)) {j : Json} (hjson : d.json = .ok j)
    (hbefore : ∀ other ∈ before, ∀ b, other d ≠ .ok b) (h : dec d = .ok a) :
    firstOf (before ++ dec :: after) d = .ok a := by
  have hnone : before.findSome? (fun other => (other d).toOption) = none := by
    rw [List.findSome?_eq_none_iff]
    intro other hother
    cases hd : other d with
    | error e => rfl
    | ok b => exact absurd hd (hbefore other hother b)
  have hsome : (dec d).toOption = some a := toOption_eq_some_iff.mpr h
  unfold firstOf
  rw [hjson, List.findSome?_append, hnone, Option.none_or, List.findSome?_cons, hsome]
  rfl

theorem values_ofMembers {toJson : α → Json} (h : ∀ m ∈ as, dec (.ofJson (toJson m.2)) = .ok m.2) :
    values dec (Document.ofMembers (as.map fun m => (m.1, toJson m.2))) = .ok as := by
  induction as with
  | nil => rfl
  | cons m as ih =>
    rw [List.forall_mem_cons] at h
    rw [List.map_cons, Document.ofMembers, values, h.1, ih h.2]
    rfl

/-- Values under distinct keys come back in their order. -/
theorem keyed_toJson {toJson : α → Json} (hkeys : (as.map (·.1)).Nodup)
    (h : ∀ m ∈ as, dec (.ofJson (toJson m.2)) = .ok m.2) :
    keyed dec (.ofJson (.object (as.map fun m => (m.1, toJson m.2)))) = .ok as := by
  rw [Document.ofJson, keyed, values_ofMembers h]
  exact congrArg Except.ok (Json.settle_eq_self hkeys)

/-- No two values are under one key, however often it was given. -/
theorem nodup_of_keyed (h : keyed dec d = .ok as) : (as.map (·.1)).Nodup := by
  cases d with
  | object ms ending =>
    obtain ⟨bs, -, h⟩ := bind_eq_ok_iff.mp h
    obtain ⟨-, -, h⟩ := bind_eq_ok_iff.mp h
    obtain rfl := pure_eq_ok_iff.mp h
    exact Json.nodup_settle bs
  | _ => nomatch h

end Decoder

namespace Layer

open Record

variable {ms : List (String × Document)}

theorem inputDecoder_ne_ok (h : "size" ∉ ms.map (·.1)) (l : Layer) :
    inputDecoder (.object ms .closed) ≠ .ok l :=
  (needs_map needs_required).ofObject_ne_ok h _ l

theorem convolutionDecoder_ne_ok (h : "in_channels" ∉ ms.map (·.1)) (l : Layer) :
    convolutionDecoder (.object ms .closed) ≠ .ok l :=
  (needs_seq (needs_seq (needs_seq (needs_seq (needs_map needs_required))))).ofObject_ne_ok h _ l

theorem poolingDecoder_ne_ok (h : "kernel_size" ∉ ms.map (·.1)) (l : Layer) :
    poolingDecoder (.object ms .closed) ≠ .ok l :=
  (needs_seq (needs_map needs_required)).ofObject_ne_ok h _ l

theorem inputDecoder_toJson (size : UInt32) :
    inputDecoder (.ofJson (input size).toJson) = .ok (.input size) :=
  ofObject_of_holds (holds_map (holds_field rfl (Decoder.uint32_ofNat size)))

theorem convolutionDecoder_toJson (inChannels outChannels kernelSize padding : UInt32)
    (act : Activation) :
    convolutionDecoder (.ofJson
      (convolution inChannels outChannels kernelSize padding act).toJson) =
        .ok (.convolution inChannels outChannels kernelSize padding act) :=
  have inputs := holds_map (holds_field rfl (Decoder.uint32_ofNat inChannels))
  have channels := holds_seq inputs (ignores_map (ignores_field rfl))
    (holds_field rfl (Decoder.uint32_ofNat outChannels))
  have kernel := holds_seq channels
    (ignores_seq (ignores_map (ignores_field rfl)) (ignores_field rfl))
    (holds_field rfl (Decoder.uint32_ofNat kernelSize))
  have padded := holds_seq kernel
    (ignores_seq (ignores_seq (ignores_map (ignores_field rfl)) (ignores_field rfl))
      (ignores_field rfl))
    (holds_field rfl (Decoder.uint32_ofNat padding))
  ofObject_of_holds
    (holds_seq padded
      (ignores_seq
        (ignores_seq (ignores_seq (ignores_map (ignores_field rfl)) (ignores_field rfl))
          (ignores_field rfl))
        (ignores_field rfl))
      (holds_field rfl (Activation.decoder_name act)))

theorem poolingDecoder_toJson (kernelSize stride : UInt32) :
    poolingDecoder (.ofJson (pooling kernelSize stride).toJson) =
      .ok (.pooling kernelSize stride) :=
  have kernel := holds_map (holds_field rfl (Decoder.uint32_ofNat kernelSize))
  ofObject_of_holds
    (holds_seq kernel (ignores_map (ignores_field rfl))
      (holds_field rfl (Decoder.uint32_ofNat stride)))

theorem denseDecoder_toJson (inFeatures outFeatures : UInt32) (act : Activation) :
    denseDecoder (.ofJson (dense inFeatures outFeatures act).toJson) =
      .ok (.dense inFeatures outFeatures act) :=
  have inputs := holds_map (holds_field rfl (Decoder.uint32_ofNat inFeatures))
  have features := holds_seq inputs (ignores_map (ignores_field rfl))
    (holds_field rfl (Decoder.uint32_ofNat outFeatures))
  ofObject_of_holds
    (holds_seq features (ignores_seq (ignores_map (ignores_field rfl)) (ignores_field rfl))
      (holds_field rfl (Activation.decoder_name act)))

theorem fits_toJson (l : Layer) (depth : Nat) : l.toJson.Fits (depth + 1) := by
  cases l <;>
    exact Json.fits_object (by simp)
      (by simp [Json.fits_ofUInt32, Activation.toJson, Json.Fits])

theorem decimals_toJson (l : Layer) : l.toJson.decimals = [] := by cases l <;> rfl

/-- The decoders before that of the kind of a layer each look for a member that it does not have. -/
theorem decoder_toJson (l : Layer) : decoder (.ofJson l.toJson) = .ok l := by
  have hjson : (Document.ofJson l.toJson).json = .ok l.toJson :=
    Json.settled_of_fits (l.fits_toJson 0)
  cases l with
  | input size =>
    exact Decoder.firstOf_eq_ok [] _ hjson (by simp) (inputDecoder_toJson size)
  | convolution inChannels outChannels kernelSize padding act =>
    refine Decoder.firstOf_eq_ok [inputDecoder] _ hjson ?_
      (convolutionDecoder_toJson inChannels outChannels kernelSize padding act)
    rw [List.forall_mem_singleton]
    exact inputDecoder_ne_ok (by simp [Document.ofMembers])
  | pooling kernelSize stride =>
    refine Decoder.firstOf_eq_ok [inputDecoder, convolutionDecoder] _ hjson ?_
      (poolingDecoder_toJson kernelSize stride)
    rw [List.forall_mem_cons, List.forall_mem_singleton]
    exact ⟨inputDecoder_ne_ok (by simp [Document.ofMembers]),
      convolutionDecoder_ne_ok (by simp [Document.ofMembers])⟩
  | dense inFeatures outFeatures act =>
    refine Decoder.firstOf_eq_ok [inputDecoder, convolutionDecoder, poolingDecoder] _ hjson ?_
      (denseDecoder_toJson inFeatures outFeatures act)
    rw [List.forall_mem_cons, List.forall_mem_cons, List.forall_mem_singleton]
    exact ⟨inputDecoder_ne_ok (by simp [Document.ofMembers]),
      convolutionDecoder_ne_ok (by simp [Document.ofMembers]),
      poolingDecoder_ne_ok (by simp [Document.ofMembers])⟩

end Layer

namespace Model

open Record

variable {m : Model} {d : Document} {ms : List (String × Document)}

/-- The fields that every model is written with. -/
def trained : Record (List String → Model) :=
  Model.mk <$> .required "layers" (.keyed Layer.decoder) <*> .required "training" Training.decoder

theorem trained_named : trained.Named ["layers", "training"] :=
  named_seq (named_map named_field) named_field

theorem trained_holds {layers : List (String × Layer)} (hkeys : (layers.map (·.1)).Nodup)
    (training : Training) :
    trained.Holds
      [("layers", .ofJson (.object (layers.map fun m => (m.1, m.2.toJson)))),
       ("training", .ofJson training.toJson)] (Model.mk layers training) :=
  have hlayers : Decoder.keyed Layer.decoder _ = .ok layers :=
    Decoder.keyed_toJson hkeys fun m _ => m.2.decoder_toJson
  have htraining : Training.decoder (.ofJson training.toJson) = .ok training :=
    decoder_of_holds training.holds_members
  holds_seq (holds_map (holds_field rfl hlayers)) (ignores_map (ignores_field rfl))
    (holds_field rfl htraining)

/-- Classes that are left out are none. -/
theorem decoder_toJson (hm : m.names.Nodup) : decoder (.ofJson m.toJson) = .ok m := by
  obtain ⟨layers, training, classes⟩ := m
  have htrained := trained_holds hm training
  cases classes with
  | nil => exact decoder_of_holds (holds_seq_absent htrained rfl)
  | cons c cs =>
    exact decoder_of_holds
      (holds_seq htrained (trained_named.ignores _ (by decide))
        (holds_field rfl (Decoder.list_text (c :: cs))))

/-- Whatever a model is read from, no two of its layers are under one key. -/
theorem names_nodup_of_decoder (h : decoder d = .ok m) : m.names.Nodup := by
  have hensures : (trained <*> .optional "classes" (.list .text) []).Ensures
      fun m : Model => m.names.Nodup :=
    ensures_seq (ensures_seq (ensures_map
      (ensures_required fun d layers hd _ _ => Decoder.nodup_of_keyed hd)))
  exact hensures.of_decoder_eq_ok h

theorem training_of_decoder {ending : Ending} (h : decoder (.object ms ending) = .ok m) :
    ∃ d, ms.lookup "training" = some d ∧ Training.decoder d = .ok m.training := by
  obtain ⟨g, classes, hg, -, rfl⟩ := reads_seq trained_named (reads_of_ofObject h)
  obtain ⟨k, training, hk, htraining, rfl⟩ := reads_seq (named_map named_field) hg
  obtain ⟨layers, -, rfl⟩ := reads_map hk
  have hlookup : (ms.filter (·.1 ∉ ["layers"])).lookup "training" = ms.lookup "training" := by
    rw [lookup_filter (fun key => decide (key ∉ ["layers"])), if_pos (by decide)]
  rcases reads_field htraining with ⟨d, hd, hread⟩ | ⟨-, habsent⟩
  · exact ⟨d, hlookup ▸ hd, hread⟩
  · cases habsent

/-- A layer nests one deep, so a model nests three deep. -/
theorem fits_toJson (hm : m.names.Nodup) (depth : Nat) : m.toJson.Fits (depth + 3) := by
  have hlayers : (Json.object (m.layers.map fun l => (l.1, l.2.toJson))).Fits (depth + 2) :=
    Json.fits_object (by rw [List.map_map]; exact hm)
      (List.forall_mem_map.mpr fun l _ => l.2.fits_toJson depth)
  have htraining := m.training.fits_toJson (depth + 1)
  have hclasses : (Json.ofNames m.classes).Fits (depth + 2) := by
    simpa [Json.ofNames, Json.Fits] using Json.itemsFit_ofNames m.classes (depth + 1)
  unfold toJson
  split
  · exact Json.fits_object (by simp) (by simpa using ⟨hlayers, htraining⟩)
  · exact Json.fits_object (by simp) (by simpa using ⟨hlayers, htraining, hclasses⟩)

/-- Layers are whole numbers and names; the only doubles are those of the training. -/
theorem decimals_toJson (m : Model) :
    m.toJson.decimals = [m.training.learningRate, m.training.validationSplit] := by
  have hlayers : ∀ layers : List (String × Layer),
      Json.memberDecimals (layers.map fun l => (l.1, l.2.toJson)) = [] := by
    intro layers
    induction layers with
    | nil => rfl
    | cons l layers ih => simpa [Json.memberDecimals, l.2.decimals_toJson] using ih
  have htraining : m.training.toJson.decimals =
      [m.training.learningRate, m.training.validationSplit] := rfl
  unfold toJson
  split <;>
    simp [Json.decimals, Json.memberDecimals, hlayers, htraining, Json.decimals_ofNames]

/--
A model whose layers are under distinct keys is decoded from its JSON as it is, and from its text
just when that keeps the doubles of its training. Without distinct keys it is decoded from neither.
-/
theorem decode_toJson_iff (m : Model) :
    (decoder.decode? m.toJson = some m ↔ m.names.Nodup) ∧
    (Decoder.ofText decoder m.toJson.text = .ok m ↔ m.names.Nodup ∧
      Document.KeepsFloat m.training.learningRate ∧
      Document.KeepsFloat m.training.validationSplit) := by
  refine ⟨⟨fun h => ?_, fun hm => ?_⟩, ⟨fun h => ?_, fun ⟨hm, hrate, hsplit⟩ => ?_⟩⟩
  · exact names_nodup_of_decoder (toOption_eq_some_iff.mp h)
  · exact toOption_eq_some_iff.mpr (decoder_toJson hm)
  · have hm := names_nodup_of_decoder (Decoder.of_ofText_eq_ok h)
    rw [Decoder.ofText_text decoder (fits_toJson hm 124)] at h
    obtain ⟨d, hd, htraining⟩ := training_of_decoder h
    obtain rfl : Document.ofPrinted m.training.toJson = d := Option.some.inj hd
    exact ⟨hm, m.training.decoder_members_iff.mp htraining⟩
  · rw [Decoder.ofText_text_of_keeps decoder (fits_toJson hm 124)]
    · exact decoder_toJson hm
    · rw [decimals_toJson]
      simpa using ⟨hrate, hsplit⟩

end Model

end LayerGraph
