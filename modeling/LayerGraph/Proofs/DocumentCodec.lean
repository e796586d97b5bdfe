import LayerGraph.GraphCodec
import LayerGraph.Proofs.Recomposed
import LayerGraph.Proofs.RecordsRead

namespace LayerGraph

namespace Json

/-- Reading the value changes nothing in it: its objects name each member once. -/
def Settled (j : Json) : Prop := (Document.ofJson j).json = .ok j

variable {xs : List Json} {ms : List (String × Json)} {depth : Nat}

theorem jsonItems_ofItems (h : ∀ x ∈ xs, x.Settled) :
    Document.jsonItems (Document.ofItems xs) = .ok xs := by
  induction xs with
  | nil => rfl
  | cons x xs ih =>
    exact Document.jsonItems_cons_eq_ok.mpr
      ⟨x, xs, h x List.mem_cons_self, ih fun y hy => h y (List.mem_cons_of_mem x hy), rfl⟩

theorem jsonMembers_ofMembers (h : ∀ m ∈ ms, m.2.Settled) :
    Document.jsonMembers (Document.ofMembers ms) = .ok ms := by
  induction ms with
  | nil => rfl
  | cons m ms ih =>
    exact Document.jsonMembers_cons_eq_ok.mpr
      ⟨m.2, ms, h m List.mem_cons_self, ih fun n hn => h n (List.mem_cons_of_mem m hn), rfl⟩

theorem settled_array (h : ∀ x ∈ xs, x.Settled) : (array xs).Settled :=
  Document.json_array_eq_ok.mpr ⟨rfl, xs, jsonItems_ofItems h, rfl⟩

theorem settled_object (hkeys : (ms.map (·.1)).Nodup) (h : ∀ m ∈ ms, m.2.Settled) :
    (object ms).Settled :=
  Document.json_object_eq_ok.mpr
    ⟨rfl, ms, jsonMembers_ofMembers h, by rw [settle_eq_self hkeys]⟩

theorem itemsFit_iff : ItemsFit depth xs ↔ ∀ x ∈ xs, x.Fits depth := by
  induction xs with
  | nil => simp [ItemsFit]
  | cons x xs ih => simp [ItemsFit, ih]

mutual

theorem settled_of_fits {depth : Nat} : ∀ {j : Json}, j.Fits depth → j.Settled
  | .null, _ | .bool _, _ | .int _, _ | .float _, _ | .string _, _ => rfl
  | .array xs, hj => by
    rw [Fits] at hj
    exact settled_array (items_settled_of_fit hj.2)
  | .object ms, hj => by
    rw [Fits] at hj
    exact settled_object hj.2.1 (members_settled_of_fit hj.2.2)

theorem items_settled_of_fit {depth : Nat} : ∀ {xs : List Json}, ItemsFit depth xs →
    ∀ x ∈ xs, x.Settled
  | [], _ => by simp
  | x :: xs, h => by
    rw [ItemsFit] at h
    exact List.forall_mem_cons.mpr ⟨settled_of_fits h.1, items_settled_of_fit h.2⟩

theorem members_settled_of_fit {depth : Nat} : ∀ {ms : List (String × Json)},
    MembersFit depth ms → ∀ m ∈ ms, m.2.Settled
  | [], _ => by simp
  | m :: ms, h => by
    rw [MembersFit] at h
    exact List.forall_mem_cons.mpr ⟨settled_of_fits h.1, members_settled_of_fit h.2⟩

end

mutual

/-- What has been read once is read as it stands. -/
theorem settled_of_json : ∀ {d : Document} {j : Json}, d.json = .ok j → j.Settled
  | .null, _, h | .bool _, _, h | .int _, _, h | .float _, _, h | .string _, _, h => by
    obtain rfl := Except.ok.inj h
    rfl
  | .array ds ending, _, h => by
    obtain ⟨-, xs, hxs, rfl⟩ := Document.json_array_eq_ok.mp h
    exact settled_array (settled_of_jsonItems hxs)
  | .object ds ending, _, h => by
    obtain ⟨-, ms, hms, rfl⟩ := Document.json_object_eq_ok.mp h
    refine settled_object (nodup_settle ms) ?_
    apply settle_induct (P := fun acc : List (String × Json) => ∀ m ∈ acc, m.2.Settled)
    · simp
    · intro acc hacc m hm n hn
      rcases mem_put hn with hn | hn
      · exact hn ▸ settled_of_jsonMembers hms m hm
      · exact hacc n hn
  | .unreadable, _, h | .broken, _, h => nomatch h

theorem settled_of_jsonItems : ∀ {ds : List Document} {xs : List Json},
    Document.jsonItems ds = .ok xs → ∀ x ∈ xs, x.Settled
  | [], _, h => by
    obtain rfl := Except.ok.inj h
    simp
  | d :: ds, _, h => by
    obtain ⟨x, xs, hx, hxs, rfl⟩ := Document.jsonItems_cons_eq_ok.mp h
    exact List.forall_mem_cons.mpr ⟨settled_of_json hx, settled_of_jsonItems hxs⟩

theorem settled_of_jsonMembers : ∀ {ds : List (String × Document)} {ms : List (String × Json)},
    Document.jsonMembers ds = .ok ms → ∀ m ∈ ms, m.2.Settled
  | [], _, h => by
    obtain rfl := Except.ok.inj h
    simp
  | (k, d) :: ds, _, h => by
    obtain ⟨x, ms, hx, hms, rfl⟩ := Document.jsonMembers_cons_eq_ok.mp h
    exact List.forall_mem_cons.mpr ⟨settled_of_json hx, settled_of_jsonMembers hms⟩

end

end Json

theorem Decoder.text_eq_ok_iff {d : Document} {s : String} :
    Decoder.text d = .ok s ↔ d = .string s := by
  cases d <;> simp [Decoder.text]

theorem Decoder.text_string (s : String) : Decoder.text (.string s) = .ok s := rfl

def RawBlock.members (r : RawBlock) : List (String × Json) :=
  [("type", .string r.kind), ("data", r.data)]

theorem RawBlock.ofMembers_members (r : RawBlock) (hr : r.data.Settled) :
    RawBlock.ofMembers r.members = .ok r :=
  have kind := Record.holds_map (Record.holds_field rfl (Decoder.text_string r.kind))
  Record.decoder_of_holds
    (Record.holds_seq kind (Record.ignores_map (Record.ignores_field rfl))
      (Record.holds_field rfl hr))

namespace Document

variable {ms : List (String × Json)} {p : String → Bool} {key : String}

theorem lookup_ofMembers : (ofMembers ms).lookup key = (ms.lookup key).map ofJson := by
  induction ms with
  | nil => rfl
  | cons m ms ih =>
    rw [ofMembers, List.lookup_cons, List.lookup_cons, ih]
    cases key == m.1 <;> rfl

theorem ofMembers_filter :
    (ofMembers ms).filter (p ·.1) = ofMembers (ms.filter (p ·.1)) := by
  induction ms with
  | nil => rfl
  | cons m ms ih =>
    rw [ofMembers, List.filter_cons, List.filter_cons, ih]
    cases p m.1 <;> rfl

theorem ofJson_eq_string {j : Json} {s : String} (h : ofJson j = .string s) : j = .string s := by
  cases j <;> simp_all [ofJson]

end Document

/-- A block has a type string, and null for data that are not there. -/
theorem RawBlock.of_ofMembers_eq_ok {ms : List (String × Json)} {r : RawBlock}
    (h : RawBlock.ofMembers ms = .ok r) :
    ms.lookup "type" = some (.string r.kind) ∧
      (Document.ofJson ((ms.lookup "data").getD .null)).json = .ok r.data := by
  obtain ⟨g, data, hg, hdata, rfl⟩ :=
    Record.reads_seq (Record.named_map Record.named_field) (Record.reads_of_ofObject h)
  obtain ⟨kind, hkind, rfl⟩ := Record.reads_map hg
  constructor
  · rcases Record.reads_field hkind with ⟨d, hd, htext⟩ | ⟨-, habsent⟩
    · rw [Document.lookup_ofMembers, Option.map_eq_some_iff] at hd
      obtain ⟨j, hj, rfl⟩ := hd
      rw [hj, Document.ofJson_eq_string (Decoder.text_eq_ok_iff.mp htext)]
    · cases habsent
  · have hlookup : ((Document.ofMembers ms).filter (·.1 ∉ ["type"])).lookup "data" =
        (ms.lookup "data").map Document.ofJson := by
      rw [lookup_filter (fun key => decide (key ∉ ["type"])), if_pos (by decide),
        Document.lookup_ofMembers]
    rcases Record.reads_field hdata with ⟨d, hd, hjson⟩ | ⟨hnone, habsent⟩
    · rw [hlookup, Option.map_eq_some_iff] at hd
      obtain ⟨j, hj, rfl⟩ := hd
      rw [hj]
      exact hjson
    · rw [hlookup, Option.map_eq_none_iff] at hnone
      rw [hnone]
      exact congrArg Except.ok (Except.ok.inj habsent)

namespace Block

/-- The type string and the data give the block again. -/
structure Settled (b : Block) : Prop where
  hasOwnKindName : b.HasOwnKindName
  data : b.data.Settled

theorem settled_of_ofRaw {r : RawBlock} {b : Block} (h : ofRaw r = .ok b) (hr : r.data.Settled) :
    b.Settled := by
  have hknown : b.kind? ≠ none → b.Settled := by
    intro hb
    constructor
    · cases b with
      | unknown kind data => exact absurd rfl hb
      | _ => rfl
    · have hfits : b.data.Fits (0 + 2) := by
        apply data_fits
        rintro kind data rfl
        exact absurd rfl hb
      exact Json.settled_of_fits hfits
  unfold ofRaw at h
  split at h
  · rename_i hkind
    obtain rfl := Except.ok.inj h
    exact ⟨hkind, hr⟩
  · split at h
    · rename_i hdata
      obtain rfl := Except.ok.inj h
      exact hknown (by simp [kind?_of_ofData? hdata])
    · cases h

end Block

theorem Position.decoder_toJson (p : Position) : Position.decoder (.ofJson p.toJson) = .ok p :=
  have x := Record.holds_map (Record.holds_field rfl (Decoder.float_float p.x))
  Record.decoder_of_holds
    (Record.holds_seq x (Record.ignores_map (Record.ignores_field rfl))
      (Record.holds_field rfl (Decoder.float_float p.y)))

theorem NodeId.decoder_toJson (id : NodeId) : NodeId.decoder (.ofJson id.toJson) = .ok id := rfl

theorem EdgeId.decoder_toJson (id : EdgeId) : EdgeId.decoder (.ofJson id.toJson) = .ok id := rfl

theorem Edge.decoder_toJson (e : Edge) : Edge.decoder (.ofJson e.toJson) = .ok e :=
  have id := Record.holds_map (Record.holds_field rfl e.id.decoder_toJson)
  have source := Record.holds_seq id (Record.ignores_map (Record.ignores_field rfl))
    (Record.holds_field rfl e.source.decoder_toJson)
  Record.decoder_of_holds
    (Record.holds_seq source
      (Record.ignores_seq (Record.ignores_map (Record.ignores_field rfl))
        (Record.ignores_field rfl))
      (Record.holds_field rfl e.target.decoder_toJson))

namespace Node

/-- The fields that every node is written with. -/
def labelled : Record (Option Position → Block → Node) :=
  Node.mk <$> .required "id" NodeId.decoder <*> .optional "sequenceIndex" .uint32 0
    <*> .optional "label" .text ""

/-- The fields that a node has besides those of its block. -/
def own : Record (Block → Node) := labelled <*> .nullable "position" Position.decoder

def ownNames : List String := ["id", "sequenceIndex", "label", "position"]

theorem labelled_named : labelled.Named ["id", "sequenceIndex", "label"] :=
  Record.named_seq
    (Record.named_seq (Record.named_map Record.named_field) Record.named_field) Record.named_field

theorem own_named : own.Named ownNames := Record.named_seq labelled_named Record.named_field

/-- The members of a node besides those of its block. -/
def ownMembers (n : Node) : List (String × Json) :=
  [("id", n.id.toJson), ("sequenceIndex", .ofUInt32 n.sequenceIndex), ("label", .string n.label)] ++
    (n.position.map fun p => ("position", p.toJson)).toList

theorem labelled_holds (id : NodeId) (sequenceIndex : UInt32) (label : String) :
    labelled.Holds
      [("id", .ofJson id.toJson), ("sequenceIndex", .int sequenceIndex.toNat),
       ("label", .string label)] (Node.mk id sequenceIndex label) :=
  have hid := Record.holds_map (Record.holds_field rfl id.decoder_toJson)
  have hindex := Record.holds_seq hid (Record.ignores_map (Record.ignores_field rfl))
    (Record.holds_field rfl (Decoder.uint32_ofNat sequenceIndex))
  Record.holds_seq hindex
    (Record.ignores_seq (Record.ignores_map (Record.ignores_field rfl)) (Record.ignores_field rfl))
    (Record.holds_field rfl (Decoder.text_string label))

theorem own_holds (n : Node) :
    own.Holds (Document.ofMembers n.ownMembers) fun b => { n with block := b } := by
  obtain ⟨id, sequenceIndex, label, position, block⟩ := n
  have hlabelled := labelled_holds id sequenceIndex label
  cases position with
  | none => exact Record.holds_seq_absent hlabelled rfl
  | some p =>
    have hposition : Decoder.option Position.decoder (.ofJson p.toJson) = .ok (some p) :=
      congrArg (some <$> ·) p.decoder_toJson
    exact Record.holds_seq hlabelled (labelled_named.ignores _ (by decide))
      (Record.holds_field rfl hposition)

/-- The node but for its block, and the members that the block is made of. -/
def fields : Record ((Block → Node) × List (String × Json)) := Prod.mk <$> own <*> .others

theorem fields_holds {n : Node} (hn : n.block.data.Settled) :
    fields.Holds (Document.ofMembers n.ownMembers ++ Document.ofMembers n.block.toRaw.members)
      (fun b => { n with block := b }, n.block.toRaw.members) := by
  refine Record.holds_seq_others (Record.holds_map n.own_holds) ?_ ?_
  · simp only [RawBlock.members, Document.ofMembers, List.forall_mem_cons]
    exact ⟨Record.ignores_map (own_named.ignores "type" (by decide)),
      Record.ignores_map (own_named.ignores "data" (by decide)), by simp⟩
  · apply Json.jsonMembers_ofMembers
    simp only [RawBlock.members, List.forall_mem_cons]
    exact ⟨rfl, hn, by simp⟩

theorem decoder_toJson {n : Node} (hn : n.block.Settled) : decoder (.ofJson n.toJson) = .ok n := by
  have hjson : Document.ofJson n.toJson = .object
      (Document.ofMembers n.ownMembers ++ Document.ofMembers n.block.toRaw.members) .closed := by
    obtain ⟨id, sequenceIndex, label, position, block⟩ := n
    cases position <;> rfl
  rw [hjson]
  refine Record.decoder_of_holds (r := record) (Record.holds_refine (fields_holds hn.data) ?_)
  exact bind_eq_ok_iff.mpr
    ⟨_, RawBlock.ofMembers_members n.block.toRaw hn.data, bind_eq_ok_iff.mpr
      ⟨_, mapError_eq_ok_iff.mpr (Block.ofRaw_toRaw hn.hasOwnKindName), rfl⟩⟩

/-- None of the fields of its own is the block. -/
theorem block_of_own_reads {ms : List (String × Document)} {f : Block → Node}
    (h : own.Reads ms f) (b : Block) : (f b).block = b := by
  obtain ⟨f₃, position, hf₃, -, rfl⟩ := Record.reads_seq labelled_named h
  obtain ⟨f₂, label, hf₂, -, rfl⟩ :=
    Record.reads_seq (Record.named_seq (Record.named_map Record.named_field) Record.named_field) hf₃
  obtain ⟨f₁, index, hf₁, -, rfl⟩ := Record.reads_seq (Record.named_map Record.named_field) hf₂
  obtain ⟨id, -, rfl⟩ := Record.reads_map hf₁
  rfl

/-- The block of a node is made of the members that are not the node's own. -/
theorem of_decoder_eq_ok {d : Document} {n : Node} (h : decoder d = .ok n) :
    ∃ ms ending rest raw, d = .object ms ending ∧
      Document.jsonMembers (ms.filter (·.1 ∉ ownNames)) = .ok rest ∧
      RawBlock.ofMembers rest = .ok raw ∧ Block.ofRaw raw = .ok n.block := by
  cases d with
  | object ms ending =>
    obtain ⟨⟨f, rest⟩, hfields, hn⟩ := Record.reads_refine (Record.reads_of_ofObject h)
    obtain ⟨g, others, hg, hothers, hpair⟩ :=
      Record.reads_seq (Record.named_map own_named) hfields
    obtain ⟨f', hown, rfl⟩ := Record.reads_map hg
    obtain ⟨rfl, rfl⟩ := Prod.mk.inj hpair
    obtain ⟨raw, hraw, hn⟩ := bind_eq_ok_iff.mp hn
    obtain ⟨b, hb, hn⟩ := bind_eq_ok_iff.mp hn
    obtain rfl := pure_eq_ok_iff.mp hn
    refine ⟨ms, ending, others, raw, rfl, Record.reads_others hothers, hraw, ?_⟩
    rw [block_of_own_reads hown]
    exact mapError_eq_ok_iff.mp hb
  | _ => nomatch h

theorem settled_of_decoder {d : Document} {n : Node} (h : decoder d = .ok n) : n.block.Settled := by
  obtain ⟨ms, ending, rest, raw, -, -, hraw, hblock⟩ := of_decoder_eq_ok h
  exact Block.settled_of_ofRaw hblock
    (Json.settled_of_json (RawBlock.of_ofMembers_eq_ok hraw).2)

/--
The node is of the registered kind that the item names, or it is a placeholder that keeps the type
string and the data of the item, and is encoded with them.
-/
def From (item : Json) (n : Node) : Prop :=
  ∃ kind, item.get? "type" = some (.string kind) ∧
    match Kind.ofName? kind with
    | some k => n.block.kind? = some k
    | none =>
      let data := (item.get? "data").getD .null
      n.block = .unknown kind data ∧ n.toJson.get? "type" = some (.string kind) ∧
        n.toJson.get? "data" = some data

theorem get?_toJson (n : Node) : n.toJson.get? "type" = some (.string n.block.kindName) ∧
    n.toJson.get? "data" = some n.block.data := by
  obtain ⟨id, sequenceIndex, label, position, block⟩ := n
  cases position <;> exact ⟨rfl, rfl⟩

theorem from_of_decoder {item : Json} {n : Node} {depth : Nat} (hitem : item.Fits depth)
    (h : decoder (.ofJson item) = .ok n) : n.From item := by
  obtain ⟨ds, ending, rest, ⟨kind, data⟩, hd, hrest, hraw, hblock⟩ := of_decoder_eq_ok h
  cases item with
  | object ms =>
    obtain ⟨rfl, -⟩ := Document.object.inj hd
    have hms : ∀ m ∈ ms, m.2.Settled := by
      rw [Json.Fits] at hitem
      exact Json.members_settled_of_fit hitem.2.2
    -- the members are read as they stand
    obtain rfl : ms.filter (·.1 ∉ ownNames) = rest := by
      rw [Document.ofMembers_filter (p := fun key => decide (key ∉ ownNames)),
        Json.jsonMembers_ofMembers fun m hm => hms m (List.mem_of_mem_filter hm)] at hrest
      exact Except.ok.inj hrest
    obtain ⟨hkind, hdata⟩ := RawBlock.of_ofMembers_eq_ok hraw
    rw [lookup_filter (fun key => decide (key ∉ ownNames)), if_pos (by decide)] at hkind hdata
    have hsettled : ((ms.lookup "data").getD .null).Settled := by
      cases hl : ms.lookup "data" with
      | none => rfl
      | some v => exact hms _ (mem_of_lookup hl)
    obtain rfl : (ms.lookup "data").getD .null = data :=
      Except.ok.inj (hsettled.symm.trans hdata)
    refine ⟨kind, hkind, ?_⟩
    unfold Block.ofRaw at hblock
    split at hblock
    · rename_i hnone
      obtain ⟨htype, hdata⟩ := n.get?_toJson
      rw [← Except.ok.inj hblock] at htype hdata
      rw [hnone]
      exact ⟨(Except.ok.inj hblock).symm, htype, hdata⟩
    · rename_i k hk
      rw [hk]
      split at hblock
      · rename_i hb
        exact Block.kind?_of_ofData? (Except.ok.inj hblock ▸ hb)
      · cases hblock
  | _ => nomatch hd

end Node

theorem Decoder.items_eq_ok_iff {α : Type} {dec : Decoder α} {ds : List Document} {as : List α} :
    Decoder.items dec ds = .ok as ↔ List.Forall₂ (fun d a => dec d = .ok a) ds as := by
  induction ds generalizing as with
  | nil =>
    rw [Decoder.items, List.forall₂_nil_left_iff, Except.ok.injEq]
    exact eq_comm
  | cons d ds ih =>
    simp only [Decoder.items, bind_eq_ok_iff, pure_eq_ok_iff, List.forall₂_cons_left_iff, ih]
    constructor
    · rintro ⟨a, ha, as, has, rfl⟩
      exact ⟨a, as, ha, has, rfl⟩
    · rintro ⟨a, as, ha, has, rfl⟩
      exact ⟨a, ha, as, has, rfl⟩

theorem Decoder.list_eq_ok_iff {α : Type} {dec : Decoder α} {d : Document} {as : List α} :
    Decoder.list dec d = .ok as ↔
      ∃ ds, d = .array ds .closed ∧ List.Forall₂ (fun d a => dec d = .ok a) ds as := by
  cases d with
  | array ds ending =>
    simp only [Decoder.list, bind_eq_ok_iff, pure_eq_ok_iff, Decoder.items_eq_ok_iff,
      Document.Ending.expectClosed]
    constructor
    · rintro ⟨as, has, u, hclosed, rfl⟩
      split at hclosed
      · rename_i h
        exact ⟨ds, by rw [h], has⟩
      · cases hclosed
    · rintro ⟨ds, hds, has⟩
      obtain ⟨rfl, rfl⟩ := Document.array.inj hds
      exact ⟨as, has, (), rfl, rfl⟩
  | _ => simp [Decoder.list]

theorem Document.ofItems_eq_map (xs : List Json) : ofItems xs = xs.map ofJson := by
  induction xs with
  | nil => rfl
  | cons x xs ih => rw [ofItems, ih, List.map_cons]

theorem Decoder.list_toJson {α : Type} {dec : Decoder α} {toJson : α → Json} {as : List α}
    (h : ∀ a ∈ as, dec (.ofJson (toJson a)) = .ok a) :
    Decoder.list dec (.ofJson (.array (as.map toJson))) = .ok as := by
  refine Decoder.list_eq_ok_iff.mpr ⟨_, rfl, ?_⟩
  rw [Document.ofItems_eq_map, List.map_map, List.forall₂_map_left_iff, List.forall₂_same]
  exact h

namespace GraphDocument

theorem decoder_toJson {doc : GraphDocument} (hdoc : ∀ n ∈ doc.nodes, n.block.Settled) :
    decoder (.ofJson doc.toJson) = .ok doc :=
  have nodes := Record.holds_map (Record.holds_field rfl
    (Decoder.list_toJson fun n hn => Node.decoder_toJson (hdoc n hn)))
  Record.decoder_of_holds
    (Record.holds_seq nodes (Record.ignores_map (Record.ignores_field rfl))
      (Record.holds_field rfl (Decoder.list_toJson fun e _ => e.decoder_toJson)))

/-- The part of a document that has the nodes. -/
def nodesPart : Document → Option Document
  | .object ms _ => ms.lookup "nodes"
  | .array ds _ => ds.head?
  | _ => none

theorem of_decoder_eq_ok {d : Document} {doc : GraphDocument} (h : decoder d = .ok doc) :
    ∃ nodes, nodesPart d = some nodes ∧ Decoder.list Node.decoder nodes = .ok doc.nodes := by
  cases d with
  | object ms ending =>
    obtain ⟨g, edges, hg, -, rfl⟩ :=
      Record.reads_seq (Record.named_map Record.named_field) (Record.reads_of_ofObject h)
    obtain ⟨nodes, hnodes, rfl⟩ := Record.reads_map hg
    rcases Record.reads_field hnodes with hread | ⟨-, habsent⟩
    · exact hread
    · cases habsent
  | array ds ending =>
    obtain ⟨⟨doc', rest⟩, helements, hdoc⟩ := bind_eq_ok_iff.mp h
    cases ds with
    | nil => cases ending <;> nomatch helements
    | cons nodes ds =>
      obtain ⟨⟨g, ds'⟩, hg, helements⟩ := bind_eq_ok_iff.mp helements
      obtain ⟨⟨edges, ds''⟩, -, hpair⟩ := bind_eq_ok_iff.mp helements
      obtain ⟨rfl, rfl⟩ := Prod.mk.inj (pure_eq_ok_iff.mp hpair)
      obtain rfl : g edges = doc := by
        simp only at hdoc
        split at hdoc
        · exact pure_eq_ok_iff.mp hdoc
        · exact absurd hdoc throw_ne_ok
      obtain ⟨ns, hns, rfl⟩ := Record.elements_map_field_cons hg
      exact ⟨nodes, rfl, hns⟩
  | _ => nomatch h

/-- The items that a document in JSON has for its nodes. -/
def nodeItems : Json → List Json
  | .object ms =>
    match ms.lookup "nodes" with
    | some (.array items) => items
    | _ => []
  | .array (.array items :: _) => items
  | _ => []

theorem eq_ofItems_nodeItems {j : Json} {ds : List Document}
    (h : nodesPart (.ofJson j) = some (.array ds .closed)) :
    ds = Document.ofItems (nodeItems j) := by
  have harray : ∀ v : Json, Document.ofJson v = .array ds .closed →
      ∃ items, v = .array items ∧ ds = Document.ofItems items := by
    intro v hv
    cases v with
    | array items => exact ⟨items, rfl, (Document.array.inj hv).1.symm⟩
    | _ => nomatch hv
  cases j with
  | object ms =>
    simp only [Document.ofJson, nodesPart, Document.lookup_ofMembers] at h
    obtain ⟨v, hv, hd⟩ := Option.map_eq_some_iff.mp h
    obtain ⟨items, rfl, rfl⟩ := harray v hd
    rw [nodeItems, hv]
  | array xs =>
    cases xs with
    | nil => nomatch h
    | cons x xs =>
      obtain ⟨items, rfl, rfl⟩ := harray x (Option.some.inj h)
      rfl
  | _ => nomatch h

theorem nodeItems_fit {j : Json} {depth : Nat} (hj : j.Fits depth) :
    ∀ x ∈ nodeItems j, x.Fits (depth - 2) := by
  have harray : ∀ items, (Json.array items).Fits (depth - 1) → ∀ x ∈ items, x.Fits (depth - 2) := by
    intro items hitems
    rw [Json.Fits, Json.itemsFit_iff] at hitems
    exact hitems.2
  intro x hx
  unfold nodeItems at hx
  split at hx
  · rename_i ms
    rw [Json.Fits, Json.membersFit_iff] at hj
    split at hx
    · rename_i items hitems
      exact harray items (hj.2.2 _ (mem_of_lookup hitems)) x hx
    · cases hx
  · rename_i items xs
    rw [Json.Fits, Json.ItemsFit] at hj
    exact harray items hj.2.1 x hx
  · cases hx

theorem from_of_decoder {j : Json} {doc : GraphDocument} {depth : Nat} (hj : j.Fits depth)
    (h : decoder (.ofJson j) = .ok doc) : List.Forall₂ Node.From (nodeItems j) doc.nodes := by
  obtain ⟨nodes, hnodes, hlist⟩ := of_decoder_eq_ok h
  obtain ⟨ds, rfl, hds⟩ := Decoder.list_eq_ok_iff.mp hlist
  rw [eq_ofItems_nodeItems hnodes, Document.ofItems_eq_map, List.forall₂_map_left_iff] at hds
  have hitems := (List.forall₂_and_left _ _).mpr ⟨nodeItems_fit hj, hds⟩
  exact hitems.imp fun item n hn => Node.from_of_decoder hn.1 hn.2

theorem settled_of_decoder {d : Document} {doc : GraphDocument} (h : decoder d = .ok doc) :
    ∀ n ∈ doc.nodes, n.block.Settled := by
  obtain ⟨nodes, -, hlist⟩ := of_decoder_eq_ok h
  obtain ⟨ds, -, hds⟩ := Decoder.list_eq_ok_iff.mp hlist
  exact of_forall₂ hds fun _ _ hn => Node.settled_of_decoder hn

end GraphDocument

instance Document.decidableKeepsFloat (x : Float) : Decidable (Document.KeepsFloat x) :=
  decidable_of_iff ((Document.ofFloat x).json = .ok (.float x)) (Document.json_ofFloat_eq_iff x)

theorem Decoder.ofText_text_of_keeps {α : Type} (dec : Decoder α) {j : Json}
    (hj : j.Fits Document.nestingLimit) (hx : ∀ x ∈ j.decimals, Document.KeepsFloat x) :
    Decoder.ofText dec j.text = dec (.ofJson j) := by
  rw [Decoder.ofText_text dec hj,
    Document.ofJson_eq_ofPrinted hj ((Document.json_ofPrinted_eq_iff hj).mpr hx)]

theorem Json.fits_get? {j v : Json} {key : String} {depth : Nat} (hj : j.Fits depth)
    (hv : j.get? key = some v) : v.Fits (depth - 1) := by
  cases j with
  | object ms =>
    rw [Fits, membersFit_iff] at hj
    exact hj.2.2 _ (mem_of_lookup hv)
  | _ => nomatch hv

theorem Json.fits_array {xs : List Json} {depth : Nat} (h : ∀ x ∈ xs, x.Fits depth) :
    (array xs).Fits (depth + 1) := by
  rw [Fits, itemsFit_iff]
  exact ⟨Nat.succ_pos depth, h⟩

theorem Node.fits_toJson {n : Node} {depth : Nat} (hdata : n.block.data.Fits (depth + 1)) :
    n.toJson.Fits (depth + 2) := by
  obtain ⟨id, sequenceIndex, label, position, block⟩ := n
  have hposition : ∀ p : Position, p.toJson.Fits (depth + 1) := fun p =>
    Json.fits_object (by simp) (by simp [Json.Fits])
  cases position <;>
    exact Json.fits_object (by simp)
      (by simpa [Json.fits_ofUInt32, NodeId.toJson, Json.Fits, hposition] using hdata)

theorem Edge.fits_toJson (e : Edge) (depth : Nat) : e.toJson.Fits (depth + 1) :=
  Json.fits_object (by simp) (by simp [NodeId.toJson, EdgeId.toJson, Json.Fits])

namespace GraphDocument

theorem fits_toJson {doc : GraphDocument} {depth : Nat}
    (hdoc : ∀ n ∈ doc.nodes, n.block.data.Fits (depth + 1)) : doc.toJson.Fits (depth + 4) := by
  have hnodes := Json.fits_array (List.forall_mem_map.mpr fun n hn => Node.fits_toJson (hdoc n hn))
  have hedges := Json.fits_array
    (List.forall_mem_map.mpr fun (e : Edge) (_ : e ∈ doc.edges) => e.fits_toJson (depth + 1))
  exact Json.fits_object (by simp) (by simpa using ⟨hnodes, hedges⟩)

theorem data_fits_of_from {item : Json} {n : Node} {depth : Nat} (hitem : item.Fits (depth + 3))
    (h : n.From item) : n.block.data.Fits (depth + 2) := by
  apply Block.data_fits
  intro kind data hblock
  obtain ⟨own, -, h⟩ := h
  split at h
  · simp [hblock, Block.kind?] at h
  · obtain ⟨-, rfl⟩ := Block.unknown.inj (hblock.symm.trans h.1)
    cases hl : item.get? "data" with
    | none => simp [Json.Fits]
    | some v => exact Json.fits_get? hitem hl

/--
However a document came in JSON, what it is decoded to is encoded so that decoding gives the same
again, also through text that keeps the doubles. A node is of the kind that its item names, when
that is registered; else it keeps the type string and the data of the item as they are.
-/
theorem decode?_toJson_of_decode? {j : Json} {doc : GraphDocument} {depth : Nat}
    (hj : j.Fits depth) (h : decoder.decode? j = some doc) :
    decoder.decode? doc.toJson = some doc ∧
    (j.Fits Document.nestingLimit → (∀ x ∈ doc.toJson.decimals, Document.KeepsFloat x) →
      Decoder.ofText decoder doc.toJson.text = .ok doc) ∧
    List.Forall₂ Node.From (nodeItems j) doc.nodes := by
  have hdoc : decoder (.ofJson j) = .ok doc := by
    unfold Decoder.decode? at h
    cases hd : decoder (.ofJson j) with
    | error e => simp [hd, Except.toOption] at h
    | ok doc' => simpa [hd, Except.toOption] using h
  have hagain := decoder_toJson (settled_of_decoder hdoc)
  have hfrom := from_of_decoder hj hdoc
  refine ⟨?_, ?_, hfrom⟩
  · rw [Decoder.decode?, hagain]
    rfl
  · intro hlimit hkeeps
    have hfits : doc.toJson.Fits (123 + 4) := by
      apply fits_toJson
      have hitems : List.Forall₂ (fun (x : Json) (n : Node) => x.Fits (122 + 3) ∧ n.From x) _ _ :=
        (List.forall₂_and_left _ _).mpr ⟨nodeItems_fit hlimit, hfrom⟩
      exact of_forall₂ hitems fun item n hn => data_fits_of_from hn.1 hn.2
    rw [Decoder.ofText_text_of_keeps decoder hfits hkeeps]
    exact hagain

/-- Older names, fields left out or given by their place, and kinds that are not registered. -/
def olderDocument : Json :=
  .array
    [.array
      [.object
        [("type", .string "convBlock"), ("id", .string "c"),
         ("position", .array [.int 1, .float 2.5]),
         ("data", .object [("size", .int 5), ("sizeOut", .int 8), ("sizeIn", .int 3)])],
       .object
        [("id", .string "p"), ("type", .string "poolingBlock"), ("position", .null),
         ("data", .object
          [("channels", .int 8), ("size", .int 2), ("type", .object [("avg", .null)])])],
       .object
        [("id", .string "o"), ("type", .string "outputBlock"), ("data", .array [.int 8, .int 4])],
       .object [("id", .string "k"), ("type", .string "classifierBlocks"), ("data", .null)],
       .object
        [("id", .string "u"), ("type", .string "dropoutBlock"),
         ("data", .object [("rate", .float 0.5), ("after", .array [.null])])],
       .object [("id", .string "v"), ("type", .string "customBlock")]],
     .array [.array [.string "e", .string "c", .string "p"]]]

theorem decode?_toJson_of_decode?_olderDocument :
    ∃ doc : GraphDocument,
      doc.nodes.map (·.block) =
        [.convolutional ⟨3, 8, 5, 0⟩, .pooling ⟨8, 2, 2, .avg⟩, .output ⟨8, 4⟩, .classifier [],
         .unknown "dropoutBlock" (.object [("rate", .float 0.5), ("after", .array [.null])]),
         .unknown "customBlock" .null] ∧
      decoder.decode? olderDocument = some doc ∧ decoder.decode? doc.toJson = some doc ∧
      Decoder.ofText decoder doc.toJson.text = .ok doc ∧
      List.Forall₂ Node.From (nodeItems olderDocument) doc.nodes := by
  have hj : olderDocument.Fits Document.nestingLimit := by
    simp [olderDocument, Json.Fits, Json.ItemsFit, Json.MembersFit, Document.nestingLimit]
  obtain ⟨doc, hdoc⟩ : ∃ doc, decoder.decode? olderDocument = some doc :=
    Option.isSome_iff_exists.mp (by decide +kernel)
  obtain ⟨hagain, htext, hfrom⟩ := decode?_toJson_of_decode? hj hdoc
  have hread : doc = (decoder.decode? olderDocument).getD {} := by rw [hdoc]; rfl
  refine ⟨doc, ?_, hdoc, hagain, htext hj ?_, hfrom⟩
  · rw [hread]
    decide +kernel
  · rw [hread]
    decide +kernel

end GraphDocument

end LayerGraph
