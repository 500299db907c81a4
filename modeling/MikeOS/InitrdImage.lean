import MikeOS.Initrd
import MikeOS.CString

/-!
# The ramdisk image: generator and kernel

The generator is a Python program that runs when the image is built; the
kernel finds the image in memory and reads it back. Both sides are modelled
and the round trip is proved for every list of files the format can hold.
-/

set_option autoImplicit false

namespace MikeOS.InitrdImage
open MikeOS.Initrd MikeOS.CString

/-! ## Generator -/

structure SourceFile where
  name : List Byte
  data : List Byte
  deriving DecidableEq, Repr

def nameSize : ℕ := 20
def garbageValue : Byte := 0x55#8

def le32Bytes (n : ℕ) : List Byte :=
  [BitVec.ofNat 8 n, BitVec.ofNat 8 (n/2^8), BitVec.ofNat 8 (n/2^16), BitVec.ofNat 8 (n/2^24)]

/-- `struct.pack('I', n)`, which raises on a value that needs more bits. -/
def packI (n : ℕ) : Option (List Byte) := if n < 2^32 then some (le32Bytes n) else none

/-- The raw bytes of `ctypes.create_string_buffer(name, size)`, which raises
when the name is longer than the buffer. -/
def createStringBuffer (name : List Byte) (size : ℕ) : Option (List Byte) :=
  if name.length ≤ size then some (name ++ List.replicate (size-name.length) 0#8) else none

def inodeToRaw (name : List Byte) (offset size : ℕ) : Option (List Byte) := do
  let name ← createStringBuffer name nameSize
  let size ← packI size
  let offset ← packI offset
  return offset ++ size ++ name

def accumulate : ℕ → List ℕ → List ℕ
  | _, [] => []
  | total, item::rest => (total+item) :: accumulate (total+item) rest

/-- The sizes shifted by one place, a zero in front and the last one dropped,
then summed up. -/
def filesOffsets (files : List SourceFile) : List ℕ :=
  accumulate 0 (0 :: files.map fun f => f.data.length).dropLast

def inodesTable : List SourceFile → List ℕ → Option (List Byte)
  | f::files, offset::offsets => do
    let raw ← inodeToRaw f.name offset f.data.length
    let rest ← inodesTable files offsets
    return raw ++ rest
  | _, _ => some []

def padding (size : ℕ) : List Byte :=
  if size%4096 ≠ 0 then
    let alignedSize := size/4096*4096
    let alignedSize := if alignedSize < size then alignedSize+4096 else alignedSize
    List.replicate (alignedSize-size) garbageValue
  else []

def createInitrd (files : List SourceFile) : Option (List Byte) := do
  let table ← inodesTable files (filesOffsets files)
  let count ← packI files.length
  let image := count ++ table ++ files.flatMap SourceFile.data
  return image ++ padding image.length

/-! ## Kernel -/

structure FileSystem where
  partitionBeginOffset : Word
  partitionEndOffset : Word

def mappedPages (fs : FileSystem) : Word :=
  (fs.partitionEndOffset-fs.partitionBeginOffset)/pageSize

def initrdSearchInodeTable (ram : Ram) (name : List Byte) : ℕ → Word → Option Word
  | 0, _ => none
  | count+1, inode =>
    if strcmp (fun k => ram (inode+8#32+BitVec.ofNat 32 k)) name = 0 then some inode
    else initrdSearchInodeTable ram name count (inode+28#32)

def skipSlash : List Byte → List Byte
  | c::path => if c = 0x2f#8 then path else c::path
  | [] => []

/-- `block` is what `kmalloc(sizeof(fs_node_t))` returned. -/
def initrdOpen (ram : Ram) (fs : FileSystem) (path : List Byte) (block : Word) : Option FsNode :=
  let start := fs.partitionBeginOffset
  let numberOfInodes := readWord ram start
  match initrdSearchInodeTable ram (skipSlash path) numberOfInodes.toNat (start+4#32) with
  | none => none
  | some inode =>
    if block = null then none
    else
      let inodeTableEnd := start+4#32+numberOfInodes*28#32
      some ⟨readWord ram (inode+4#32), inodeTableEnd+readWord ram inode⟩

/-! ## Bytes in memory -/

def Placed (ram : Ram) (p : Word) (bytes : List Byte) : Prop :=
  ∀ i (h : i < bytes.length), ram (p+BitVec.ofNat 32 i) = bytes[i]

theorem placed_append {ram : Ram} {p : Word} {xs ys : List Byte} (h : Placed ram p (xs ++ ys)) :
    Placed ram p xs ∧ Placed ram (p+BitVec.ofNat 32 xs.length) ys := by
  constructor
  · intro i hi
    rw [h i (by simp only [List.length_append]; omega), List.getElem_append_left hi]
  · intro i hi
    have := h (xs.length+i) (by simp only [List.length_append]; omega)
    rw [BitVec.ofNat_add, ← BitVec.add_assoc] at this
    rw [this, List.getElem_append_right (by omega)]
    simp

theorem le32_bytes (n : ℕ) (hn : n < 2^32) :
    (le32 (BitVec.ofNat 8 n) (BitVec.ofNat 8 (n/2^8)) (BitVec.ofNat 8 (n/2^16))
      (BitVec.ofNat 8 (n/2^24))).toNat = n := by
  have hor : ∀ a b : ℕ, b < 2^8 → a <<< 8 ||| b = a*2^8+b := by
    intro a b hb
    rw [← Nat.shiftLeft_add_eq_or_of_lt hb, Nat.shiftLeft_eq]
  simp only [le32, BitVec.toNat_append, BitVec.toNat_ofNat]
  rw [hor _ _ (by omega), hor _ _ (by omega), hor _ _ (by omega)]
  omega

theorem readWord_placed {ram : Ram} {p : Word} {n : ℕ} (hn : n < 2^32)
    (h : Placed ram p (le32Bytes n)) : (readWord ram p).toNat = n := by
  have h0 := h 0 (by simp [le32Bytes])
  have h1 := h 1 (by simp [le32Bytes])
  have h2 := h 2 (by simp [le32Bytes])
  have h3 := h 3 (by simp [le32Bytes])
  simp only [BitVec.add_zero, le32Bytes, List.getElem_cons_zero,
    List.getElem_cons_succ] at h0 h1 h2 h3
  rw [readWord, h0, h1, h2, h3, le32_bytes n hn]

/-! ## The table the generator writes -/

def totalSize (files : List SourceFile) : ℕ := (files.map fun f => f.data.length).sum

def paddedName (name : List Byte) : List Byte := name ++ List.replicate (nameSize-name.length) 0#8

def row (f : SourceFile) (offset : ℕ) : List Byte :=
  le32Bytes offset ++ le32Bytes f.data.length ++ paddedName f.name

def tableFrom : ℕ → List SourceFile → List Byte
  | _, [] => []
  | offset, f::files => row f offset ++ tableFrom (offset+f.data.length) files

def offsetsFrom : ℕ → List SourceFile → List ℕ
  | _, [] => []
  | offset, f::files => offset :: offsetsFrom (offset+f.data.length) files

theorem accumulate_offsets (files : List SourceFile) (total item : ℕ) :
    accumulate total (item :: files.map fun f => f.data.length).dropLast =
      offsetsFrom (total+item) files := by
  induction files generalizing total item with
  | nil => rfl
  | cons f files ih =>
    rw [List.map_cons, List.dropLast_cons_of_ne_nil (by simp), accumulate, ih]
    rfl

theorem inodeToRaw_eq (f : SourceFile) (offset : ℕ) (hn : f.name.length ≤ nameSize)
    (ho : offset < 2^32) (hs : f.data.length < 2^32) :
    inodeToRaw f.name offset f.data.length = some (row f offset) := by
  simp only [inodeToRaw, createStringBuffer, packI, if_pos hn, if_pos ho, if_pos hs]
  rfl

theorem inodesTable_eq (files : List SourceFile) (offset : ℕ)
    (hn : ∀ f ∈ files, f.name.length ≤ nameSize) (ho : offset+totalSize files < 2^32) :
    inodesTable files (offsetsFrom offset files) = some (tableFrom offset files) := by
  induction files generalizing offset with
  | nil => rfl
  | cons f files ih =>
    simp only [totalSize, List.map_cons, List.sum_cons] at ho
    have hrest := ih (offset+f.data.length) (fun g hg => hn g (by simp [hg]))
      (by simp only [totalSize]; omega)
    rw [offsetsFrom, inodesTable, inodeToRaw_eq f offset (hn f (by simp)) (by omega) (by omega), hrest]
    rfl

theorem row_length (f : SourceFile) (offset : ℕ) (hn : f.name.length ≤ nameSize) :
    (row f offset).length = 28 := by
  simp only [row, paddedName, le32Bytes, nameSize] at *
  simp
  omega

theorem table_length (files : List SourceFile) (offset : ℕ)
    (hn : ∀ f ∈ files, f.name.length ≤ nameSize) :
    (tableFrom offset files).length = 28*files.length := by
  induction files generalizing offset with
  | nil => rfl
  | cons f files ih =>
    rw [tableFrom, List.length_append, row_length f offset (hn f (by simp)),
      ih _ (fun g hg => hn g (by simp [hg])), List.length_cons]
    omega

def imageBody (files : List SourceFile) : List Byte :=
  le32Bytes files.length ++ tableFrom 0 files ++ files.flatMap SourceFile.data

/-- What the format can hold: distinct, non-empty, short names, and an image
whose size is a 32-bit number. -/
structure Packable (files : List SourceFile) : Prop where
  distinct : (files.map SourceFile.name).Nodup
  named : ∀ f ∈ files, f.name ≠ []
  short : ∀ f ∈ files, f.name.length ≤ 19
  noNul : ∀ f ∈ files, 0#8 ∉ f.name
  noSlash : ∀ f ∈ files, 0x2f#8 ∉ f.name
  fits : (4+28*files.length+totalSize files+4095)/4096*4096 < 2^32

structure Accepted (files : List SourceFile) : Prop where
  distinct : (files.map SourceFile.name).Nodup
  names_fit : ∀ f ∈ files, f.name.length ≤ nameSize
  noNul : ∀ f ∈ files, 0#8 ∉ f.name
  noSlash : ∀ f ∈ files, 0x2f#8 ∉ f.name
  fits : (4+28*files.length+totalSize files+4095)/4096*4096 < 2^32

theorem Packable.accepted {files : List SourceFile} (h : Packable files) : Accepted files :=
  ⟨h.distinct,fun f hf => (h.short f hf).trans (by decide),h.noNul,h.noSlash,h.fits⟩

theorem createInitrd_eq (files : List SourceFile) (h : Accepted files) :
    createInitrd files = some (imageBody files ++ padding (imageBody files).length) := by
  have hfit := h.fits
  have ht := inodesTable_eq files 0 h.names_fit (by omega)
  have hoff : filesOffsets files = offsetsFrom 0 files := accumulate_offsets files 0 0
  have hc : packI files.length = some (le32Bytes files.length) := if_pos (by omega)
  rw [createInitrd, hoff, ht, hc]
  rfl

theorem body_length (files : List SourceFile) (h : Accepted files) :
    (imageBody files).length = 4+28*files.length+totalSize files := by
  have hd : (files.flatMap SourceFile.data).length = totalSize files := by
    simp [List.length_flatMap, totalSize]
  rw [imageBody, List.length_append, List.length_append, table_length files 0 h.names_fit, hd]
  rfl

theorem padded_length (n : ℕ) : n+(padding n).length = (n+4095)/4096*4096 := by
  simp only [padding]
  split_ifs with h1 h2
  · rw [List.length_replicate]
    omega
  · omega
  · rw [List.length_nil]
    omega

/-! ## Reading the table back -/

theorem padded_char {ram : Ram} {p : Word} {name : List Byte} (hp : Placed ram p (paddedName name)) :
    ∀ i (h : i < name.length), ram (p+BitVec.ofNat 32 i) = name[i] := by
  intro i hi
  rw [hp i (by simp only [paddedName, List.length_append]; omega)]
  simp [paddedName, List.getElem_append_left hi]

theorem padded_nul {ram : Ram} {p : Word} {name : List Byte} (hp : Placed ram p (paddedName name))
    (hs : name.length < nameSize) : ram (p+BitVec.ofNat 32 name.length) = 0#8 := by
  rw [hp name.length (by simp only [paddedName, List.length_append, List.length_replicate]; omega)]
  simp [paddedName]

theorem spells_padded (ram : Ram) (p : Word) (name path : List Byte)
    (hp : Placed ram p (paddedName name)) (hend : ram (p+BitVec.ofNat 32 name.length) = 0#8) (hn : 0#8 ∉ name)
    (hpath : 0#8 ∉ path) :
    Spells (fun k => ram (p+BitVec.ofNat 32 k)) path ↔ name = path := by
  have hchar := padded_char hp
  constructor
  · rintro ⟨hall,hnul⟩
    apply List.ext_getElem
    · rcases lt_trichotomy name.length path.length with hlt | heq | hgt
      · have hz := hall name.length hlt
        simp only [hend] at hz
        exact absurd (hz ▸ List.getElem_mem hlt) hpath
      · exact heq
      · have hz := hchar path.length hgt
        simp only [hnul] at hz
        exact absurd (hz ▸ List.getElem_mem hgt) hn
    · intro i hi hi'
      rw [← hchar i hi]
      exact hall i hi'
  · rintro rfl
    exact ⟨hchar,hend⟩

theorem placed_row {ram : Ram} {p : Word} {f : SourceFile} {offset : ℕ}
    (h : Placed ram p (row f offset)) :
    Placed ram p (le32Bytes offset) ∧ Placed ram (p+4#32) (le32Bytes f.data.length) ∧
    Placed ram (p+8#32) (paddedName f.name) := by
  obtain ⟨hhead,hname⟩ := placed_append h
  obtain ⟨hoff,hsize⟩ := placed_append hhead
  exact ⟨hoff,hsize,hname⟩

def NamesEnd (ram : Ram) : Word → List SourceFile → Prop
  | _, [] => True
  | p, f::files => ram (p+8#32+BitVec.ofNat 32 f.name.length) = 0#8 ∧ NamesEnd ram (p+28#32) files

theorem namesEnd_of_short {ram : Ram} (files : List SourceFile) (offset : ℕ) (p : Word)
    (hshort : ∀ f ∈ files, f.name.length ≤ 19) (ht : Placed ram p (tableFrom offset files)) :
    NamesEnd ram p files := by
  induction files generalizing offset p with
  | nil => trivial
  | cons f files ih =>
    have hf : f.name.length < nameSize := Nat.lt_succ_of_le (hshort f (by simp))
    obtain ⟨hrow,htable⟩ := placed_append ht
    rw [row_length f offset hf.le] at htable
    exact ⟨padded_nul (placed_row hrow).2.2 hf,ih _ _ (fun g hg => hshort g (by simp [hg])) htable⟩

/-- The entry the kernel finds is that of the file with the name searched for,
and its fields describe that file; `dataStart` is the end of the table. -/
theorem search_spec (ram : Ram) (dataStart : Word) (name : List Byte) (hname : 0#8 ∉ name)
    (files : List SourceFile) (offset : ℕ) (p : Word)
    (hsize : ∀ f ∈ files, f.name.length ≤ nameSize) (hnul : ∀ f ∈ files, 0#8 ∉ f.name)
    (hend : NamesEnd ram p files) (hfit : offset+totalSize files < 2^32) (ht : Placed ram p (tableFrom offset files))
    (hd : Placed ram (dataStart+BitVec.ofNat 32 offset) (files.flatMap SourceFile.data)) :
    (initrdSearchInodeTable ram name files.length p = none ∧ ∀ f ∈ files, f.name ≠ name) ∨
    ∃ inode, initrdSearchInodeTable ram name files.length p = some inode ∧
      ∃ f ∈ files, f.name = name ∧ (readWord ram (inode+4#32)).toNat = f.data.length ∧
        Placed ram (dataStart+readWord ram inode) f.data := by
  induction files generalizing offset p with
  | nil => exact Or.inl ⟨rfl,by simp⟩
  | cons f files ih =>
    simp only [totalSize, List.map_cons, List.sum_cons] at hfit
    obtain ⟨hrow,htable⟩ := placed_append ht
    rw [row_length f offset (hsize f (by simp))] at htable
    obtain ⟨hoff,hlength,hpad⟩ := placed_row hrow
    rw [List.flatMap_cons] at hd
    obtain ⟨hdata,hrest⟩ := placed_append hd
    have hmatch : strcmp (fun k => ram (p+8#32+BitVec.ofNat 32 k)) name = 0 ↔ f.name = name := by
      rw [strcmp_eq_zero_iff _ _ hname]
      exact spells_padded ram (p+8#32) f.name name hpad hend.1 (hnul f (by simp)) hname
    by_cases he : f.name = name
    · right
      refine ⟨p,?_,f,by simp,he,readWord_placed (by omega) hlength,?_⟩
      · rw [List.length_cons, initrdSearchInodeTable, if_pos (hmatch.mpr he)]
      · have hword : readWord ram p = BitVec.ofNat 32 offset := by
          apply BitVec.eq_of_toNat_eq
          rw [readWord_placed (by omega) hoff, BitVec.toNat_ofNat]
          omega
        rwa [hword]
    · have hnext : initrdSearchInodeTable ram name (f::files).length p =
          initrdSearchInodeTable ram name files.length (p+28#32) := by
        rw [List.length_cons, initrdSearchInodeTable, if_neg (fun h => he (hmatch.mp h))]
      rw [BitVec.add_assoc, ← BitVec.ofNat_add] at hrest
      rw [hnext]
      rcases ih (offset+f.data.length) (p+28#32) (fun g hg => hsize g (by simp [hg]))
        (fun g hg => hnul g (by simp [hg])) hend.2 (by simp only [totalSize]; omega) htable hrest with
        ⟨hnone,hall⟩ | ⟨inode,hsome,g,hg,hrec⟩
      · exact Or.inl ⟨hnone,List.forall_mem_cons.mpr ⟨he,hall⟩⟩
      · exact Or.inr ⟨inode,hsome,g,List.mem_cons_of_mem f hg,hrec⟩

theorem read_placed (ram : Ram) (node : FsNode) (data : List Byte)
    (hsize : node.size.toNat = data.length) (hp : Placed ram node.fsSpecific data)
    (offset length buffer : Word) (hb : buffer ≠ null) (hl : 1 ≤ length.toNat)
    (hin : offset.toNat+length.toNat ≤ data.length) :
    (initrdRead node offset length buffer).1 = length ∧
    (initrdRead node offset length buffer).2.map ram =
      (data.drop offset.toNat).take length.toNat := by
  have hne : length ≠ 0#32 := by
    rintro rfl
    exact absurd hl (by decide)
  rw [initrdRead_eq node offset length buffer hne hb (by omega)]
  refine ⟨rfl,?_⟩
  apply List.ext_getElem
  · simp only [List.length_map, List.length_range, List.length_take, List.length_drop]
    omega
  · intro i hi hi'
    simp only [List.length_map, List.length_range] at hi
    simp only [List.getElem_map, List.getElem_range, List.getElem_take, List.getElem_drop]
    exact hp (offset.toNat+i) (by omega)

theorem skipSlash_nul {path : List Byte} (h : 0#8 ∉ path) : 0#8 ∉ skipSlash path := by
  cases path with
  | nil => exact h
  | cons c path =>
    rw [skipSlash]
    split
    · exact fun hm => h (List.mem_cons_of_mem c hm)
    · exact h

/-- With the image in memory, opening a path either finds no file of that name
or the node of the file that has it, whose data the node points to. -/
theorem open_cases (files : List SourceFile) (h : Accepted files) (ram : Ram) (fs : FileSystem)
    (hbody : Placed ram fs.partitionBeginOffset (imageBody files))
    (hend : NamesEnd ram (fs.partitionBeginOffset+4#32) files)
    (path : List Byte) (hpath : 0#8 ∉ path) :
    ((∀ block, initrdOpen ram fs path block = none) ∧ ∀ f ∈ files, f.name ≠ skipSlash path) ∨
    ∃ f ∈ files, f.name = skipSlash path ∧ ∃ node : FsNode, node.size.toNat = f.data.length ∧
      Placed ram node.fsSpecific f.data ∧
      ∀ block, initrdOpen ram fs path block = if block = null then none else some node := by
  have hfit := h.fits
  obtain ⟨hhead,hdata⟩ := placed_append hbody
  obtain ⟨hcount,htable⟩ := placed_append hhead
  have hn := readWord_placed (by omega) hcount
  have hw : readWord ram fs.partitionBeginOffset = BitVec.ofNat 32 files.length := by
    apply BitVec.eq_of_toNat_eq
    rw [hn, BitVec.toNat_ofNat]
    omega
  have hstart : fs.partitionBeginOffset+BitVec.ofNat 32
      (le32Bytes files.length ++ tableFrom 0 files).length =
      fs.partitionBeginOffset+4#32+readWord ram fs.partitionBeginOffset*28#32+BitVec.ofNat 32 0 := by
    rw [hw, List.length_append, table_length files 0 h.names_fit]
    apply BitVec.eq_of_toNat_eq
    simp only [le32Bytes, List.length_cons, List.length_nil, BitVec.toNat_add, BitVec.toNat_mul,
      BitVec.toNat_ofNat]
    omega
  rw [hstart] at hdata
  have hspec := search_spec ram _ (skipSlash path) (skipSlash_nul hpath) files 0
    (fs.partitionBeginOffset+4#32) h.names_fit h.noNul hend (by omega) htable hdata
  simp only [initrdOpen, hn]
  rcases hspec with ⟨hnone,hall⟩ | ⟨inode,hsome,f,hf,hname,hsize,hplaced⟩
  · exact Or.inl ⟨fun block => by rw [hnone],hall⟩
  · refine Or.inr ⟨f,hf,hname,⟨readWord ram (inode+4#32), _⟩,hsize,hplaced,fun block => ?_⟩
    rw [hsome]

/-- Round trip. The image is a whole number of pages, so the pages the kernel
maps cover it; with the image in memory a path opens exactly when, without one
leading slash, it is the name of a file, and the node has that file's size and
reads back that file's bytes. -/
theorem initrd_round_trip (files : List SourceFile) (h : Packable files) :
    ∃ image, createInitrd files = some image ∧ image.length%4096 = 0 ∧
      ∀ (ram : Ram) (fs : FileSystem), Placed ram fs.partitionBeginOffset image →
        fs.partitionEndOffset = fs.partitionBeginOffset+BitVec.ofNat 32 image.length →
        (mappedPages fs).toNat*4096 = image.length ∧
        ∀ (path : List Byte) (block : Word), 0#8 ∉ path →
          ((initrdOpen ram fs path block).isSome = true ↔
            block ≠ null ∧ skipSlash path ∈ files.map SourceFile.name) ∧
          ∀ node, initrdOpen ram fs path block = some node →
            ∀ f ∈ files, f.name = skipSlash path →
              node.size.toNat = f.data.length ∧
              ∀ offset length buffer : Word, buffer ≠ null → 1 ≤ length.toNat →
                offset.toNat+length.toNat ≤ f.data.length →
                (initrdRead node offset length buffer).1 = length ∧
                (initrdRead node offset length buffer).2.map ram =
                  (f.data.drop offset.toNat).take length.toNat := by
  have hfit := h.fits
  have hlen : (imageBody files ++ padding (imageBody files).length).length =
      (4+28*files.length+totalSize files+4095)/4096*4096 := by
    rw [List.length_append, padded_length, body_length files h.accepted]
  refine ⟨_,createInitrd_eq files h.accepted,by omega,fun ram fs hplaced hend => ⟨?_,?_⟩⟩
  · rw [mappedPages, hend, hlen, pageSize_eq, BitVec.toNat_udiv, show (4096#32).toNat = 4096 from rfl]
    bv_omega
  · intro path block hpath
    have hbody := (placed_append hplaced).1
    have hend := namesEnd_of_short files 0 _ h.short (placed_append (placed_append hbody).1).2
    rcases open_cases files h.accepted ram fs hbody hend path hpath with
      ⟨hnone,hall⟩ | ⟨g,hg,hgname,node,hsize,hdata,hopen⟩
    · rw [hnone]
      refine ⟨?_,by simp⟩
      simp only [Option.isSome_none, Bool.false_eq_true, false_iff, not_and, List.mem_map, not_exists]
      exact fun _ f hf he => hall f hf he
    · rw [hopen]
      constructor
      · have hm : skipSlash path ∈ files.map SourceFile.name := List.mem_map.mpr ⟨g,hg,hgname⟩
        by_cases hb : block = null <;> simp [hb, hm]
      · intro node' hnode f hf hfname
        have hfg : f = g := List.inj_on_of_nodup_map h.distinct hf hg (by rw [hfname, hgname])
        have he : node = node' := by
          by_cases hb : block = null <;> simp [hb] at hnode
          exact hnode
        subst hfg he
        exact ⟨hsize,fun offset length buffer hbuf hl hin =>
          read_placed ram node f.data hsize hdata offset length buffer hbuf hl hin⟩

def sampleFiles : List SourceFile :=
  [⟨[0x61#8], [1#8, 2#8, 3#8]⟩, ⟨[0x69#8, 0x6e#8], []⟩]

theorem sample_packable : Packable sampleFiles := by
  constructor <;> decide

def holding (bytes : List Byte) (p : Word) : Ram := fun a => bytes.getD (a-p).toNat 0#8

theorem holding_placed (bytes : List Byte) (p : Word) (h : bytes.length < 2^32) :
    Placed (holding bytes p) p bytes := by
  intro i hi
  have hidx : (p+BitVec.ofNat 32 i-p).toNat = i := by bv_omega
  rw [holding, hidx, List.getD_eq_getElem?_getD, List.getElem?_eq_getElem hi, Option.getD_some]

theorem initrd_round_trip_two_files :
    Packable sampleFiles ∧ ∃ image, createInitrd sampleFiles = some image ∧
      (initrdOpen (holding image 0xC0800000#32)
        ⟨0xC0800000#32, 0xC0800000#32+BitVec.ofNat 32 image.length⟩
        [0x2f#8, 0x61#8] 0xC0900000#32).isSome = true := by
  obtain ⟨image,himage,-,hround⟩ := initrd_round_trip sampleFiles sample_packable
  have hlt : image.length < 2^32 := by
    rw [createInitrd_eq _ sample_packable.accepted, Option.some.injEq] at himage
    rw [← himage, List.length_append, padded_length, body_length _ sample_packable.accepted]
    exact sample_packable.fits
  refine ⟨sample_packable,image,himage,?_⟩
  exact (((hround _ ⟨0xC0800000#32, 0xC0800000#32+BitVec.ofNat 32 image.length⟩
    (holding_placed image 0xC0800000#32 hlt) rfl).2 [0x2f#8, 0x61#8] 0xC0900000#32
    (by decide)).1).mpr ⟨by decide,by decide⟩

end MikeOS.InitrdImage
