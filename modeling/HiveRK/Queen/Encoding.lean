import HiveRK.Machine.Bytes
import HiveRK.Queen.BeeData

/-!
# The module format

A module starts with its metadata: the magic, the format, the id, the name, the priority, the
number of exports, the exports, and the offset of `init`. `Header.encode` is that layout, field
by field. `makeBeeData` reads it with skips that it counts by hand.
-/

namespace HiveRK.Queen

open Machine

/-- The metadata of a module. -/
structure Header where
  format : Byte
  id : BitVec 32
  name : List Byte
  priority : Byte
  exports : List (BitVec 32 × BitVec 32)
  init : BitVec 32
  name_length : name.length = 32

/-- A 32-bit field. -/
def Header.word (v : BitVec 32) : List Byte := littleEndian 4 v.toNat

/-- The id of a function, and its offset in the module. -/
def Header.entry (e : BitVec 32 × BitVec 32) : List Byte := word e.1 ++ word e.2

def Header.encode (h : Header) : List Byte :=
  magic ++ ([h.format] ++ (word h.id ++ (h.name ++ ([h.priority] ++
    (littleEndian 4 h.exports.length ++ (h.exports.flatMap entry ++ word h.init))))))

/-- What `main` should make of a header that it finds at `buf`. -/
def Header.bee (h : Header) (buf data : Nat) : Bee where
  name := h.name
  data := data
  base := buf
  id := h.id.toNat
  priority := h.priority.toNat
  format := h.format.toNat
  init := h.init.toNat
  exports := h.exports.map fun e => ⟨e.1.toNat, e.2.toNat⟩

namespace Header

variable {h : Header} {m : Mem} {a buf data : Nat} {es : List (BitVec 32 × BitVec 32)}

@[simp] theorem length_word (v : BitVec 32) : (word v).length = 4 := length_littleEndian 4 v.toNat

@[simp] theorem length_entry (e : BitVec 32 × BitVec 32) : (entry e).length = 8 := by
  simp [entry]

theorem length_entries (es : List (BitVec 32 × BitVec 32)) :
    (es.flatMap entry).length = 8 * es.length := by
  induction es with
  | nil => rfl
  | cons e es ih =>
      rw [List.flatMap_cons, List.length_append, ih, length_entry, List.length_cons]
      omega

theorem length_encode (h : Header) : h.encode.length = 50 + 8 * h.exports.length := by
  simp only [encode, List.length_append, length_entries, length_word, length_littleEndian,
    h.name_length, magic, List.length_cons, List.length_nil]
  omega

theorem load_word {v : BitVec 32} (stored : BytesAt m a (word v)) : load32 m a = v.toNat :=
  stored.load v.isLt

theorem load_byte {b : Byte} (stored : BytesAt m a [b]) : load8 m a = b.toNat := by
  rw [load8_eq, (bytesAt_cons.mp stored).1]

/-- The entries lie one behind the other. -/
theorem load_entries (stored : BytesAt m a (es.flatMap entry)) (s : Nat) (hs : s < es.length) :
    load32 m (a + 8 * s) = es[s].1.toNat ∧ load32 m (a + 4 + 8 * s) = es[s].2.toNat := by
  induction es generalizing a s with
  | nil => exact absurd hs (Nat.not_lt_zero s)
  | cons e es ih =>
      rw [List.flatMap_cons, bytesAt_append, length_entry] at stored
      obtain ⟨first, rest⟩ := stored
      cases s with
      | zero =>
          obtain ⟨id, offset⟩ := bytesAt_append.mp first
          rw [length_word] at offset
          exact ⟨load_word id, load_word offset⟩
      | succ s =>
          obtain ⟨id, offset⟩ := ih rest s (by simpa using hs)
          rw [show a + 8 + 8 * s = a + 8 * (s + 1) by omega] at id
          rw [show a + 8 + 4 + 8 * s = a + 4 + 8 * (s + 1) by omega] at offset
          exact ⟨id, offset⟩

/-- What is read from an encoded header is what was encoded. -/
theorem imageBee_encode (stored : BytesAt m buf h.encode) (few : h.exports.length < 2 ^ 32) :
    imageBee m buf data = h.bee buf data := by
  simp only [encode, bytesAt_append, length_entries, length_word, length_littleEndian,
    h.name_length, magic, List.length_cons, List.length_nil] at stored
  obtain ⟨_, format, id, name, priority, count, entries, init⟩ := stored
  have n : load32 m (buf + 42) = h.exports.length := count.load few
  have exports : ∀ s (hs : s < h.exports.length),
      load32 m (buf + 46 + 8 * s) = h.exports[s].1.toNat ∧
        load32 m (buf + 50 + 8 * s) = h.exports[s].2.toNat := load_entries entries
  rw [imageBee, bee, n, Bee.mk.injEq]
  refine ⟨?_, rfl, rfl, load_word id, load_byte priority, load_byte format, ?_, ?_⟩
  · rw [← h.name_length]
    exact name
  · exact load_word init
  · refine List.ext_getElem (by simp) fun s hs _ => ?_
    have inside : s < h.exports.length := by simpa using hs
    simp only [List.getElem_map, List.getElem_range]
    rw [(exports s inside).1, (exports s inside).2]

end Header

/-- `makeBeeData` undoes the encoding of a header, and `main` copies its name. The header lies in
memory, and the page that is made for it somewhere else: `main` has `MEMORY` behind the image. -/
theorem make_bee_data_decodes {h : Header} {c : Core} {buf : Nat}
    (stored : BytesAt c.mem buf h.encode) (image : buf + h.encode.length ≤ 2 ^ 32)
    (apart : buf + h.encode.length ≤ c.memory ∨ c.memory + (h.bee buf c.memory).pageSize ≤ buf)
    (fits : c.memory + (h.bee buf c.memory).pageSize ≤ 2 ^ 32) :
    (makeBeeData c buf).2 = c.memory ∧
      DataPage (makeBeeData c buf).1.mem (h.bee buf c.memory) ∧
      loadBytes c.mem (buf + 9) 32 = h.name := by
  have long := h.length_encode
  have size : (h.bee buf c.memory).pageSize = 18 + 8 * h.exports.length := by
    rw [Bee.pageSize, Header.bee, List.length_map]
  have same : imageBee c.mem buf c.memory = h.bee buf c.memory :=
    Header.imageBee_encode stored (by omega)
  have count : load32 c.mem (buf + 42) = h.exports.length := by
    rw [← imageBee_count c.mem buf c.memory, same, Header.bee, List.length_map]
  obtain ⟨m, made, page, _⟩ := makeBeeData_page count (by omega) (by omega) (by omega)
  rw [same] at page
  rw [made]
  exact ⟨rfl, page, congrArg Bee.name same⟩

/-- A module with one function. -/
def smallHeader : Header where
  format := 0
  id := 7
  name := 0x61 :: List.replicate 31 0
  priority := 3
  exports := [(1, 0x40)]
  init := 0x3A
  name_length := rfl

/-- A core that has loaded the module's image to 0x4000. -/
def smallCore : Core :=
  { emptyCore with mem := fun x => smallHeader.encode.getD (x - 0x4000) 0, memory := 0x4200 }

theorem make_bee_data_decodes_small :
    (makeBeeData smallCore 0x4000).2 = 0x4200 ∧
      DataPage (makeBeeData smallCore 0x4000).1.mem (smallHeader.bee 0x4000 0x4200) ∧
      loadBytes smallCore.mem 0x4009 32 = smallHeader.name :=
  make_bee_data_decodes (h := smallHeader) (by decide) (by decide) (by decide) (by decide)

end HiveRK.Queen
