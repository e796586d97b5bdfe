import LayerGraph.Proofs.JsonInjective
import LayerGraph.Proofs.Lists
import LayerGraph.Proofs.Recomposed
import LayerGraph.Proofs.SameContent

namespace LayerGraph

theorem textBytes_eq_flatMap (s : String) :
    textBytes s = s.toList.flatMap String.utf8EncodeChar := by
  unfold textBytes
  rw [String.toUTF8, ← String.utf8Encode_toList, List.utf8Encode, List.data_toByteArray,
    List.toList_toArray]

theorem textBytes_inj {s s' : String} (h : textBytes s = textBytes s') : s = s' :=
  String.toByteArray_inj.mp (ByteArray.ext (Array.toList_inj.mp h))

/-- A byte below 128 stands for a character of its own. -/
theorem mem_of_mem_textBytes {b : UInt8} {s : String} (hb : b.toNat < 128) (h : b ∈ textBytes s) :
    Char.ofNat b.toNat ∈ s.toList := by
  rw [textBytes_eq_flatMap] at h
  obtain ⟨c, hc, hbc⟩ := List.mem_flatMap.mp h
  suffices he : c.toNat = b.toNat by
    rw [← he, Char.ofNat_toNat]
    exact hc
  have hv : c.val.toNat = c.toNat := rfl
  unfold String.utf8EncodeChar at hbc
  simp only [hv] at hbc
  split at hbc
  · obtain rfl := List.mem_singleton.mp hbc
    rw [UInt8.toNat_ofNat']
    omega
  · -- the bytes of other characters have the highest bit set
    exfalso
    split at hbc
    · simp only [List.mem_cons, List.not_mem_nil, or_false] at hbc
      rcases hbc with rfl | rfl
      all_goals
        rw [UInt8.toNat_ofNat'] at hb
        omega
    split at hbc
    · simp only [List.mem_cons, List.not_mem_nil, or_false] at hbc
      rcases hbc with rfl | rfl | rfl
      all_goals
        rw [UInt8.toNat_ofNat'] at hb
        omega
    · simp only [List.mem_cons, List.not_mem_nil, or_false] at hbc
      rcases hbc with rfl | rfl | rfl | rfl
      all_goals
        rw [UInt8.toNat_ofNat'] at hb
        omega

theorem nul_notMem_textBytes {s : String} (hs : '\x00' ∉ s.toList) : 0 ∉ textBytes s :=
  fun h => hs (mem_of_mem_textBytes (by decide) h)

theorem nul_notMem_json (j : Json) : 0 ∉ textBytes j.text := by
  apply nul_notMem_textBytes
  intro h
  rw [Json.text, String.toList_ofList] at h
  exact absurd (Json.printable_chars j _ h) (by decide)

@[simp] theorem length_wordBytes (w : UInt32) : (Blake3.wordBytes w).length = 4 := rfl

theorem wordBytes_inj {v w : UInt32} (h : Blake3.wordBytes v = Blake3.wordBytes w) : v = w := by
  simp only [Blake3.wordBytes, List.cons.injEq, and_true, ← UInt8.toNat_inj, UInt32.toNat_toUInt8,
    UInt32.toNat_shiftRight, Nat.shiftRight_eq_div_pow, UInt32.reduceToNat, Nat.reduceMod,
    Nat.reducePow] at h
  rw [← UInt32.toNat_inj]
  have hv := v.toNat_lt
  have hw := w.toNat_lt
  omega

theorem length_hash (bytes : List UInt8) : (Blake3.hash bytes).length = 32 := by
  simp [Blake3.hash, List.length_flatMap]

theorem hexText_inj {bs cs : List UInt8} (h : hexText bs = hexText cs) : bs = cs := by
  have hdigit : ∀ m < 16, ∀ n < 16, Nat.digitChar m = Nat.digitChar n → m = n := by decide
  have hchars := String.ofList_injective h
  clear h
  induction bs generalizing cs with
  | nil =>
    cases cs with
    | nil => rfl
    | cons c cs => cases hchars
  | cons b bs ih =>
    cases cs with
    | nil => cases hchars
    | cons c cs =>
      simp only [List.flatMap_cons, List.cons_append, List.nil_append, List.cons.injEq] at hchars
      obtain ⟨hhigh, hlow, hrest⟩ := hchars
      have hb := b.toNat_lt
      have hc := c.toNat_lt
      have hhigh := hdigit (b.toNat / 16) (by omega) (c.toNat / 16) (by omega) hhigh
      have hlow := hdigit (b.toNat % 16) (by omega) (c.toNat % 16) (by omega) hlow
      obtain rfl : b = c := UInt8.toNat_inj.mp (by omega)
      rw [ih hrest]

/-- The settings are determined by their JSON. -/
theorem Training.toJson_inj {t u : Training} (h : t.toJson = u.toJson) : t = u := by
  have hread : ∀ t : Training, Block.ofData? .training t.toJson = some (.training t) :=
    fun t => Block.ofData?_data (b := .training t) rfl
  have ht := hread t
  rw [h, hread u] at ht
  exact (Block.training.inj (Option.some.inj ht)).symm

theorem Training.text_inj {t u : Training} (ht : t.toJson.Finite) (hu : u.toJson.Finite)
    (h : t.toJson.text = u.toJson.text) : t = u :=
  Training.toJson_inj (Json.text_inj ht hu h)

theorem Block.finite_toJson {b : Block} (hb : ∀ x ∈ b.decimals, x.isFinite = true) :
    b.toJson.Finite := by
  have hdecimals : b.toJson.decimals = b.decimals := by
    simp [Block.toJson, Block.toRaw, RawBlock.toJson, Json.decimals, Json.memberDecimals,
      Block.decimals]
  rwa [Json.Finite, hdecimals]

/-- A block is determined by its JSON, when its type string is that of its kind only. -/
theorem Block.text_inj {b c : Block} (hb : b.HasOwnKindName) (hc : c.HasOwnKindName)
    (hbx : ∀ x ∈ b.decimals, x.isFinite = true) (hcx : ∀ x ∈ c.decimals, x.isFinite = true)
    (h : b.toJson.text = c.toJson.text) : b = c := by
  have hjson := Json.text_inj (finite_toJson hbx) (finite_toJson hcx) h
  have hraw : b.toRaw = c.toRaw := by
    simpa [Block.toJson, RawBlock.toJson, Block.toRaw] using hjson
  have hread := ofRaw_toRaw hb
  rw [hraw, ofRaw_toRaw hc] at hread
  exact (Except.ok.inj hread).symm

/-- What makes out the parts of a block in its bytes. -/
structure Node.Delimited (n : Node) : Prop where
  id : '\x00' ∉ n.id.text.toList
  kind : n.block.HasOwnKindName
  decimals : ∀ x ∈ n.block.decimals, x.isFinite = true

instance (n : Node) : Decidable n.Delimited :=
  decidable_of_iff ('\x00' ∉ n.id.text.toList ∧ n.block.HasOwnKindName ∧
    ∀ x ∈ n.block.decimals, x.isFinite = true)
    ⟨fun ⟨hid, hkind, hdecimals⟩ => ⟨hid, hkind, hdecimals⟩, fun h => ⟨h.id, h.kind, h.decimals⟩⟩

/-- The id ends at the first zero behind it, the label at the last zero of all. -/
theorem Node.content_inj {n m : Node} (hn : n.Delimited) (hm : m.Delimited)
    (h : n.content = m.content) : n.unplaced = m.unplaced := by
  simp only [Node.content, List.append_assoc, List.singleton_append] at h
  obtain ⟨hid, h⟩ := append_mark_inj (nul_notMem_textBytes hn.id) (nul_notMem_textBytes hm.id) h
  obtain ⟨hindex, h⟩ := List.append_inj h rfl
  obtain ⟨hlabel, hblock⟩ := append_mark_inj_last (nul_notMem_json _) (nul_notMem_json _) h
  have hid : n.id = m.id := congrArg NodeId.mk (textBytes_inj hid)
  have hblock := Block.text_inj hn.kind hm.kind hn.decimals hm.decimals (textBytes_inj hblock)
  cases n
  cases m
  simp only at hid hindex hlabel hblock
  rw [Node.unplaced, Node.unplaced, hid, wordBytes_inj hindex, textBytes_inj hlabel, hblock]

/-- A zero in an id passes for the mark behind it: the label becomes part of the index. -/
example :
    let n : Node := { id := ⟨"a"⟩, label := "L", block := .start }
    let m : Node := { id := ⟨"a\x00"⟩, sequenceIndex := 0x4c000000, block := .start }
    n.content = m.content ∧ n.unplaced ≠ m.unplaced := by
  decide +kernel

/-- What makes out the parts of a connection in its bytes. -/
structure Edge.Delimited (e : Edge) : Prop where
  id : '\x00' ∉ e.id.text.toList
  source : '\x00' ∉ e.source.text.toList
  target : '\x01' ∉ e.target.text.toList

theorem Edge.nul_mem_content (e : Edge) (r : List UInt8) : 0 ∈ e.content ++ r := by
  simp [Edge.content]

theorem Edge.content_append_inj {e f : Edge} (he : e.Delimited) (hf : f.Delimited)
    {r r' : List UInt8} (h : e.content ++ r = f.content ++ r') : e = f ∧ r = r' := by
  have htarget : ∀ {s : String}, '\x01' ∉ s.toList → 1 ∉ textBytes s :=
    fun hs h => hs (mem_of_mem_textBytes (by decide) h)
  simp only [Edge.content, List.append_assoc, List.singleton_append] at h
  obtain ⟨hid, h⟩ := append_mark_inj (nul_notMem_textBytes he.id) (nul_notMem_textBytes hf.id) h
  obtain ⟨hsource, h⟩ :=
    append_mark_inj (nul_notMem_textBytes he.source) (nul_notMem_textBytes hf.source) h
  obtain ⟨htarget, hr⟩ := append_mark_inj (htarget he.target) (htarget hf.target) h
  have hid : e.id = f.id := congrArg EdgeId.mk (textBytes_inj hid)
  have hsource : e.source = f.source := congrArg NodeId.mk (textBytes_inj hsource)
  have htarget : e.target = f.target := congrArg NodeId.mk (textBytes_inj htarget)
  refine ⟨?_, hr⟩
  cases e
  cases f
  simp only at hid hsource htarget
  rw [hid, hsource, htarget]

/-- The connections end where a text without a zero begins. -/
theorem edges_append_inj {es fs : List Edge} (hes : ∀ e ∈ es, e.Delimited)
    (hfs : ∀ e ∈ fs, e.Delimited) {r r' : List UInt8} (hr : 0 ∉ r) (hr' : 0 ∉ r')
    (h : es.flatMap (·.content) ++ r = fs.flatMap (·.content) ++ r') : es = fs ∧ r = r' := by
  induction es generalizing fs with
  | nil =>
    cases fs with
    | nil => exact ⟨rfl, h⟩
    | cons f fs =>
      rw [List.flatMap_nil, List.nil_append, List.flatMap_cons, List.append_assoc] at h
      exact absurd (h ▸ f.nul_mem_content _) hr
  | cons e es ih =>
    cases fs with
    | nil =>
      rw [List.flatMap_nil, List.nil_append, List.flatMap_cons, List.append_assoc] at h
      exact absurd (h ▸ e.nul_mem_content _) hr'
    | cons f fs =>
      rw [List.forall_mem_cons] at hes hfs
      rw [List.flatMap_cons, List.flatMap_cons, List.append_assoc, List.append_assoc] at h
      obtain ⟨rfl, hrest⟩ := Edge.content_append_inj hes.1 hfs.1 h
      obtain ⟨rfl, hend⟩ := ih hes.2 hfs.2 hrest
      exact ⟨rfl, hend⟩

end LayerGraph
