import PathOram.Cloak.Oram
import PathOram.Lib.Records

/-!
# Containers

A container of secret shares is serialized without its structure. `getContainer` recovers the
tuples by counting bytes, 16 values of 8 bytes each, and the size in front of the data cuts off
what the block was padded with.

* `dataWithSize` — what `putContainer` puts.
* `containerOf` — what `getContainer` makes of a block.
* `container_codec` — they are inverse, on containers of whole tuples.
-/

namespace CloakQueryPathORAM

open PathORAM

/-! ### Serialization -/

/-- Tuples of `int64_t`. -/
abbrev Container := List (List (BitVec 64))

/-- The bytes of the values, one after the other. -/
def serialize (data : Container) : Bytes :=
  data.flatMap (fun vec2d => vec2d.flatMap (fun vec1d => LittleEndian.encode 8 vec1d.toNat))

/-- Cut the bytes to tuples of 16 values. Those of an incomplete tuple at the end are left out. -/
def deserialize (serializedData : Bytes) : Container :=
  let totalTuples := serializedData.length / 16 / 8
  (List.range totalTuples).map (fun i => (List.range 16).map (fun j =>
    BitVec.ofNat 64 (LittleEndian.decode (Records.record 8 (i * 16 + j) serializedData))))

/-- The data that `putContainer` puts: the size of the serialized data, and the data. -/
def dataWithSize (container : Container) : Bytes :=
  LittleEndian.encode 8 (serialize container).length ++ serialize container

/-- The container that `getContainer` makes of the data of a block. `none` stands for a read
behind the end of the data, for which C++ does not say what happens. -/
def containerOf (blockData : Bytes) : Option Container :=
  if blockData.length = 0 then
    some []
  else
    let dataSize := LittleEndian.decode (blockData.take 8)
    if blockData.length < 8 + dataSize then
      none
    else
      some (deserialize ((blockData.drop 8).take dataSize))

theorem length_dataWithSize (container : Container) :
    (dataWithSize container).length = 8 + (serialize container).length := by
  rw [dataWithSize, List.length_append, LittleEndian.length_encode]

/-- **A container of full tuples comes back.** -/
theorem deserialize_serialize {container : Container}
    (h : ∀ vec2d ∈ container, vec2d.length = 16) :
    deserialize (serialize container) = container := by
  have hvalues : ∀ {vec2d : List (BitVec 64)}, ∀ vec1d ∈ vec2d,
      (LittleEndian.encode 8 vec1d.toNat).length = 8 := fun _ _ => LittleEndian.length_encode 8 _
  have htuples : ∀ vec2d ∈ container,
      (vec2d.flatMap fun vec1d => LittleEndian.encode 8 vec1d.toNat).length = 16 * 8 :=
    fun vec2d hmem => by rw [Records.length_flatMap hvalues, h vec2d hmem]
  have hlength : (serialize container).length = container.length * (16 * 8) :=
    Records.length_flatMap htuples
  have htotal : (serialize container).length / 16 / 8 = container.length := by
    rw [hlength, Nat.div_div_eq_div_mul, Nat.mul_div_cancel _ (by norm_num)]
  unfold deserialize
  rw [htotal]
  refine List.ext_getElem (by simp) fun i hi _ => ?_
  have hi' : i < container.length := by simpa using hi
  have htuple := h _ (List.getElem_mem hi')
  rw [List.getElem_map, List.getElem_range]
  refine List.ext_getElem (by simp [htuple]) fun j hj hj' => ?_
  have hlt : j < 16 := by simpa using hj
  -- The values of a tuple are the records of a record.
  rw [List.getElem_map, List.getElem_range, ← Records.record_record hlt, serialize,
    Records.record_flatMap htuples hi', Records.record_flatMap hvalues hj',
    LittleEndian.decode_encode (by norm_num; exact (container[i][j]).isLt),
    BitVec.ofNat_toNat, BitVec.setWidth_eq]

/-- **Whole tuples are serialized to the bytes they were cut from.** -/
theorem serialize_deserialize {serializedData : Bytes} (h : 128 ∣ serializedData.length) :
    serialize (deserialize serializedData) = serializedData := by
  obtain ⟨tuples, htuples⟩ := h
  have htotal : serializedData.length / 16 / 8 = tuples := by
    rw [htuples, Nat.div_div_eq_div_mul, Nat.mul_div_cancel_left _ (by norm_num)]
  -- A value is encoded to the bytes that were decoded.
  have hvalue : ∀ i < tuples, ∀ j < 16,
      LittleEndian.encode 8 (BitVec.ofNat 64 (LittleEndian.decode
        (Records.record 8 (i * 16 + j) serializedData))).toNat =
      Records.record 8 (i * 16 + j) serializedData := by
    intro i hi j hj
    have hlength : (Records.record 8 (i * 16 + j) serializedData).length = 8 :=
      Records.length_record (n := tuples * 16) (by omega) (by omega)
    have hlt := LittleEndian.decode_lt (Records.record 8 (i * 16 + j) serializedData)
    rw [hlength] at hlt
    have hencode := LittleEndian.encode_decode (Records.record 8 (i * 16 + j) serializedData)
    rw [hlength] at hencode
    rw [BitVec.toNat_ofNat, Nat.mod_eq_of_lt (hlt.trans_eq (by norm_num)), hencode]
  have htuple : ∀ i ∈ List.range tuples, ((List.range 16).map fun j => BitVec.ofNat 64
      (LittleEndian.decode (Records.record 8 (i * 16 + j) serializedData))).flatMap
        (fun vec1d => LittleEndian.encode 8 vec1d.toNat) =
      Records.record 128 i serializedData := by
    intro i hi
    have hrecords : ∀ j ∈ List.range 16, LittleEndian.encode 8 (BitVec.ofNat 64
        (LittleEndian.decode (Records.record 8 (i * 16 + j) serializedData))).toNat =
        Records.record 8 j (Records.record (16 * 8) i serializedData) := fun j hj => by
      rw [hvalue i (List.mem_range.mp hi) j (List.mem_range.mp hj),
        Records.record_record (List.mem_range.mp hj)]
    rw [List.flatMap_map, List.flatMap_congr hrecords, Records.flatMap_record]
    refine List.take_of_length_le (Records.length_record (n := tuples) ?_ ?_).le
    · omega
    · exact List.mem_range.mp hi
  unfold serialize deserialize
  rw [htotal, List.flatMap_map, List.flatMap_congr htuple, Records.flatMap_record]
  exact List.take_of_length_le (by omega)

/-- What `getContainer` makes of the data that were put, whatever they were padded with. -/
theorem containerOf_append {container : Container} (hsize : (serialize container).length < 2 ^ 64)
    (padding : Bytes) :
    containerOf (dataWithSize container ++ padding) =
      some (deserialize (serialize container)) := by
  have hlength := length_dataWithSize container
  have hdecode : LittleEndian.decode ((dataWithSize container ++ padding).take 8) =
      (serialize container).length := by
    rw [dataWithSize, List.append_assoc]
    exact LittleEndian.decode_take_encode_append (by norm_num; omega) _
  have hdata : ((dataWithSize container ++ padding).drop 8).take (serialize container).length =
      serialize container := by
    rw [dataWithSize, List.append_assoc, List.drop_left' (LittleEndian.length_encode 8 _),
      List.take_left]
  unfold containerOf
  rw [if_neg (by rw [List.length_append]; omega)]
  simp only [hdecode, hdata, List.length_append]
  rw [if_neg (by omega)]

/-- **The container codec**: a container of tuples of 16 values comes back from a padded block,
as long as its size is a `uint64_t`; and bytes that are whole tuples are serialized to
themselves. -/
theorem container_codec :
    (∀ (container : Container) (padding : ℕ), (∀ vec2d ∈ container, vec2d.length = 16) →
      (serialize container).length < 2 ^ 64 →
      containerOf (dataWithSize container ++ List.replicate padding 0) = some container) ∧
    ∀ serializedData : Bytes, 128 ∣ serializedData.length →
      serialize (deserialize serializedData) = serializedData := by
  refine ⟨fun container padding htuples hsize => ?_, fun _ h => serialize_deserialize h⟩
  rw [containerOf_append hsize, deserialize_serialize htuples]

/-- One tuple, and the bytes of one tuple. -/
theorem container_codec_tuple :
    containerOf (dataWithSize [List.replicate 16 7] ++ List.replicate 5 0) =
        some [List.replicate 16 7] ∧
      serialize (deserialize (List.replicate 128 3)) = List.replicate 128 3 := by
  have hlength : (serialize [List.replicate 16 7]).length = 128 := rfl
  refine ⟨container_codec.1 [List.replicate 16 7] 5 (fun vec2d hmem => ?_) ?_,
    container_codec.2 (List.replicate 128 3) ⟨1, List.length_replicate⟩⟩
  · rw [List.mem_singleton.mp hmem, List.length_replicate]
  · rw [hlength]
    norm_num

/-! ### The calls -/

namespace ORAM

variable {M : Type} (c : Config) (pm : AbsPositionMapAdapter M)

/-- Put a container under an ID, and note the ID. The MAC that is computed of the serialized
data is not used. -/
def putContainer (block : ℕ) (container : Container) : OramM M Unit := do
  putBlock c pm block (dataWithSize container)
  modify (fun s => { s with usedBlockIDs := insert block s.usedBlockIDs })

/-- Retrieve the container of an ID. -/
def getContainer (block : ℕ) : OramM M (Option Container) := do
  let blockData ← getBlock c pm block []
  return containerOf blockData

end ORAM

end CloakQueryPathORAM
