import MikeOS.InitrdImage

/-!
# Names that fill their field

The generator accepts a name of `NAME_SIZE` bytes and then writes no `NUL`
behind it, while the kernel compares names as strings that end. Such a name is
found precisely when the byte behind its field happens to be zero: the low byte
of the next inode's offset or, for the last inode, the first byte of the data.
-/

set_option autoImplicit false

namespace MikeOS.InitrdNames
open MikeOS.Initrd MikeOS.InitrdImage MikeOS.CString

def OpensNames (files : List SourceFile) : Prop :=
  ∃ image, createInitrd files = some image ∧
    ∀ (ram : Ram) (fs : FileSystem), Placed ram fs.partitionBeginOffset image →
      ∀ (path : List Byte) (block : Word), 0#8 ∉ path → block ≠ null →
        (∀ f ∈ files, f.name = skipSlash path → ∃ node, initrdOpen ram fs path block = some node ∧
          node.size.toNat = f.data.length ∧ Placed ram node.fsSpecific f.data) ∧
        (skipSlash path ∉ files.map SourceFile.name → initrdOpen ram fs path block = none)

def FieldsEnd (files : List SourceFile) : Prop :=
  ∀ pre f post, files = pre ++ f::post → f.name.length = nameSize →
    if post = [] then (files.flatMap SourceFile.data).head? = some 0#8 else totalSize (pre ++ [f])%256 = 0

/-! ## Rows of the table -/

def rowAt (p : Word) (i : ℕ) : Word := p+BitVec.ofNat 32 (28*i)

@[simp] theorem rowAt_zero (p : Word) : rowAt p 0 = p := BitVec.add_zero p

theorem rowAt_succ (p : Word) (i : ℕ) : rowAt p (i+1) = rowAt (p+28#32) i := by
  rw [rowAt, rowAt, Nat.mul_add, Nat.add_comm, BitVec.ofNat_add, BitVec.add_assoc]

theorem rowAt_next (p : Word) (i : ℕ) : rowAt p i+28#32 = rowAt p (i+1) := by
  rw [rowAt, rowAt, Nat.mul_add, BitVec.ofNat_add, BitVec.add_assoc]

theorem field_end (p : Word) : p+8#32+BitVec.ofNat 32 nameSize = p+28#32 := by
  rw [BitVec.add_assoc]
  rfl

theorem totalSize_cons (f : SourceFile) (files : List SourceFile) :
    totalSize (f::files) = f.data.length+totalSize files := by
  simp [totalSize]

theorem tableFrom_append (files rest : List SourceFile) (offset : ℕ) :
    tableFrom offset (files ++ rest) = tableFrom offset files ++ tableFrom (offset+totalSize files) rest := by
  induction files generalizing offset with
  | nil => rfl
  | cons f files ih =>
    rw [List.cons_append, tableFrom, tableFrom, ih, List.append_assoc, totalSize_cons, Nat.add_assoc]

theorem placed_rows {ram : Ram} {p : Word} {files rest : List SourceFile} {offset : ℕ}
    (hn : ∀ f ∈ files, f.name.length ≤ nameSize) (h : Placed ram p (tableFrom offset (files ++ rest))) :
    Placed ram (rowAt p files.length) (tableFrom (offset+totalSize files) rest) := by
  rw [tableFrom_append] at h
  have hrest := (placed_append h).2
  rwa [table_length files offset hn] at hrest

theorem namesEnd_of_rows {ram : Ram} (files : List SourceFile) (p : Word)
    (h : ∀ pre f post, files = pre ++ f::post →
      ram (rowAt p pre.length+8#32+BitVec.ofNat 32 f.name.length) = 0#8) : NamesEnd ram p files := by
  induction files generalizing p with
  | nil => trivial
  | cons f files ih =>
    refine ⟨?_,ih (p+28#32) fun pre g post hsplit => ?_⟩
    · have hf := h [] f files rfl
      rwa [List.length_nil, rowAt_zero] at hf
    · rw [← rowAt_succ]
      exact h (f::pre) g post (by rw [hsplit, List.cons_append])

/-! ## A name that does not end -/

theorem spells_full {ram : Ram} {p : Word} {name path : List Byte} (hp : Placed ram p (paddedName name))
    (hname : name.length ≤ nameSize) (hlen : path.length = nameSize) (hpath : 0#8 ∉ path)
    (h : Spells (fun k => ram (p+BitVec.ofNat 32 k)) path) : name = path := by
  have hfull : name.length = nameSize := by
    by_contra hne
    have hlt : name.length < nameSize := lt_of_le_of_ne hname hne
    have hz := h.1 name.length (by omega)
    simp only [padded_nul hp hlt] at hz
    exact hpath (hz ▸ List.getElem_mem _)
  apply List.ext_getElem
  · rw [hfull, hlen]
  · intro i hi hi'
    rw [← padded_char hp i hi]
    exact h.1 i hi'

/-- The search misses a name of the full length when the bytes behind the
fields that hold it are not zero. -/
theorem search_unended {ram : Ram} {name : List Byte} (hlen : name.length = nameSize) (hnul : 0#8 ∉ name)
    (files : List SourceFile) (offset : ℕ) (p : Word) (hsize : ∀ f ∈ files, f.name.length ≤ nameSize)
    (ht : Placed ram p (tableFrom offset files))
    (hafter : ∀ pre f post, files = pre ++ f::post → f.name = name → ram (rowAt p (pre.length+1)) ≠ 0#8) :
    initrdSearchInodeTable ram name files.length p = none := by
  induction files generalizing offset p with
  | nil => rfl
  | cons f files ih =>
    obtain ⟨hrow,htable⟩ := placed_append ht
    rw [row_length f offset (hsize f (by simp))] at htable
    have hne : strcmp (fun k => ram (p+8#32+BitVec.ofNat 32 k)) name ≠ 0 := by
      rw [Ne, strcmp_eq_zero_iff _ _ hnul]
      intro hspells
      have hname := spells_full (placed_row hrow).2.2 (hsize f (by simp)) hlen hnul hspells
      apply hafter [] f files rfl hname
      have hend : ram (p+8#32+BitVec.ofNat 32 nameSize) = 0#8 := hlen ▸ hspells.2
      rw [List.length_nil, rowAt_succ, rowAt_zero]
      rwa [field_end] at hend
    rw [List.length_cons, initrdSearchInodeTable, if_neg hne]
    apply ih (offset+f.data.length) (p+28#32) (fun g hg => hsize g (by simp [hg])) htable
    intro pre g post hsplit hname
    rw [← rowAt_succ]
    exact hafter (f::pre) g post (by rw [hsplit, List.cons_append]) hname

/-! ## The byte behind a field -/

section Body

variable {ram : Ram} {b : Word} {files pre post : List SourceFile} {f : SourceFile}

theorem placed_head {p : Word} {x : Byte} {xs : List Byte} (h : Placed ram p (x::xs)) : ram p = x := by
  have h0 := h 0 (by simp)
  rwa [BitVec.add_zero] at h0

theorem body_parts (h : Accepted files) (hbody : Placed ram b (imageBody files)) :
    Placed ram (b+4#32) (tableFrom 0 files) ∧
      Placed ram (rowAt (b+4#32) files.length) (files.flatMap SourceFile.data) := by
  obtain ⟨hhead,hdata⟩ := placed_append hbody
  refine ⟨(placed_append hhead).2,?_⟩
  rw [List.length_append, table_length files 0 h.names_fit, BitVec.ofNat_add, ← BitVec.add_assoc] at hdata
  exact hdata

theorem after_inner_field (h : Accepted files) (hbody : Placed ram b (imageBody files))
    (hsplit : files = pre ++ f::post) (hpost : post ≠ []) :
    ram (rowAt (b+4#32) (pre.length+1)) = BitVec.ofNat 8 (totalSize (pre ++ [f])) := by
  obtain ⟨g,rest,rfl⟩ := List.exists_cons_of_ne_nil hpost
  have hfiles : files = (pre ++ [f]) ++ g::rest := by rw [hsplit, List.append_assoc]; rfl
  have htable := (body_parts h hbody).1
  rw [hfiles] at htable
  have hn : ∀ x ∈ pre ++ [f], x.name.length ≤ nameSize := fun x hx =>
    h.names_fit x (by rw [hfiles]; exact List.mem_append_left _ hx)
  have hrow := (placed_append (placed_rows hn htable)).1
  rw [List.length_append, List.length_singleton] at hrow
  have hoffset := placed_head (placed_row hrow).1
  rwa [Nat.zero_add] at hoffset

theorem after_last_field (h : Accepted files) (hbody : Placed ram b (imageBody files))
    (hsplit : files = pre ++ [f]) {x : Byte} (hx : (files.flatMap SourceFile.data).head? = some x) :
    ram (rowAt (b+4#32) (pre.length+1)) = x := by
  obtain ⟨xs,hxs⟩ := List.head?_eq_some_iff.mp hx
  have hdata := (body_parts h hbody).2
  rw [hxs] at hdata
  have hlen : files.length = pre.length+1 := by rw [hsplit, List.length_append]; rfl
  rw [← hlen]
  exact placed_head hdata

theorem ofNat_byte_eq_zero (n : ℕ) : BitVec.ofNat 8 n = 0#8 ↔ n%256 = 0 := by
  rw [← BitVec.toNat_inj, BitVec.toNat_ofNat]
  rfl

theorem after_field_of_fieldsEnd (h : Accepted files) (hends : FieldsEnd files)
    (hbody : Placed ram b (imageBody files)) (hsplit : files = pre ++ f::post)
    (hlen : f.name.length = nameSize) : ram (rowAt (b+4#32) (pre.length+1)) = 0#8 := by
  have hend := hends pre f post hsplit hlen
  split at hend
  · rename_i hpost
    subst hpost
    exact after_last_field h hbody hsplit hend
  · rename_i hpost
    rw [after_inner_field h hbody hsplit hpost]
    exact (ofNat_byte_eq_zero _).mpr hend

theorem namesEnd_of_fieldsEnd (h : Accepted files) (hends : FieldsEnd files)
    (hbody : Placed ram b (imageBody files)) : NamesEnd ram (b+4#32) files := by
  apply namesEnd_of_rows
  intro pre f post hsplit
  have hf : f ∈ files := by rw [hsplit]; simp
  rcases lt_or_eq_of_le (h.names_fit f hf) with hlt | heq
  · have htable := (body_parts h hbody).1
    rw [hsplit] at htable
    have hn : ∀ x ∈ pre, x.name.length ≤ nameSize := fun x hx =>
      h.names_fit x (by rw [hsplit]; exact List.mem_append_left _ hx)
    have hrow := (placed_append (placed_rows hn htable)).1
    exact padded_nul (placed_row hrow).2.2 hlt
  · rw [heq, field_end, rowAt_next]
    exact after_field_of_fieldsEnd h hends hbody hsplit heq

end Body

/-! ## Exactly when every name opens -/

theorem skipSlash_of_noSlash {name : List Byte} (h : 0x2f#8 ∉ name) : skipSlash name = name := by
  cases name with
  | nil => rfl
  | cons c name => exact if_neg fun hc => h (by simp [hc])

theorem opens_of_fieldsEnd {files : List SourceFile} (h : Accepted files) (hends : FieldsEnd files) :
    OpensNames files := by
  refine ⟨_,createInitrd_eq files h,fun ram fs hplaced path block hpath hblock => ?_⟩
  have hbody := (placed_append hplaced).1
  rcases open_cases files h ram fs hbody (namesEnd_of_fieldsEnd h hends hbody) path hpath with
    ⟨hnone,hall⟩ | ⟨g,hg,hgname,node,hsize,hdata,hopen⟩
  · exact ⟨fun f hf he => absurd he (hall f hf),fun _ => hnone block⟩
  · rw [hopen, if_neg hblock]
    constructor
    · intro f hf hfname
      have hfg : f = g := List.inj_on_of_nodup_map h.distinct hf hg (by rw [hfname, hgname])
      subst hfg
      exact ⟨node,rfl,hsize,hdata⟩
    · exact fun hnot => absurd (List.mem_map.mpr ⟨g,hg,hgname⟩) hnot

theorem split_length {pre post pre' post' : List SourceFile} {f f' : SourceFile}
    (hnodup : ((pre ++ f::post).map SourceFile.name).Nodup) (hsplit : pre ++ f::post = pre' ++ f'::post')
    (hname : f'.name = f.name) : pre'.length = pre.length := by
  have hidx : ∀ {l r : List SourceFile} {g : SourceFile}, ((l ++ g::r).map SourceFile.name).Nodup →
      ((l ++ g::r).map SourceFile.name).idxOf g.name = l.length := by
    intro l r g hn
    rw [List.map_append, List.map_cons] at hn ⊢
    have hnot : g.name ∉ l.map SourceFile.name := fun hm =>
      (List.disjoint_of_nodup_append hn) hm List.mem_cons_self
    rw [List.idxOf_append_of_notMem hnot, List.idxOf_cons_self, List.length_map, Nat.add_zero]
  have hpre := hidx hnodup
  rw [hsplit] at hnodup hpre
  rw [← hidx hnodup, hname, hpre]

theorem after_field_of_open {files pre post : List SourceFile} {f : SourceFile} {ram : Ram} {fs : FileSystem}
    {block : Word} {node : FsNode} (h : Accepted files)
    (hbody : Placed ram fs.partitionBeginOffset (imageBody files)) (hsplit : files = pre ++ f::post)
    (hlen : f.name.length = nameSize) (hopen : initrdOpen ram fs f.name block = some node) :
    ram (rowAt (fs.partitionBeginOffset+4#32) (pre.length+1)) = 0#8 := by
  by_contra hne
  have hf : f ∈ files := by rw [hsplit]; simp
  have hfit := h.fits
  have hcount := readWord_placed (by omega) (placed_append (placed_append hbody).1).1
  have hsearch := search_unended hlen (h.noNul f hf) files 0 _ h.names_fit (body_parts h hbody).1 (by
    intro pre' f' post' hsplit' hname
    have hnodup := h.distinct
    rw [hsplit] at hnodup
    rw [split_length hnodup (hsplit.symm.trans hsplit') hname]
    exact hne)
  simp only [initrdOpen, hcount, skipSlash_of_noSlash (h.noSlash f hf), hsearch] at hopen
  exact absurd hopen (by simp)

theorem padding_nonzero {n : ℕ} {x : Byte} (hx : x ∈ padding n) : x ≠ 0#8 := by
  have hgarbage : x = garbageValue := by
    unfold padding at hx
    split at hx
    · exact List.eq_of_mem_replicate hx
    · simp at hx
  rw [hgarbage]
  decide

def followed (files : List SourceFile) : List Byte :=
  imageBody files ++ (padding (imageBody files).length ++ [0xFF#8])

theorem followed_placed {files : List SourceFile} (h : Accepted files) :
    Placed (holding (followed files) 0#32) 0#32 (followed files) := by
  have hlen : (followed files).length = (4+28*files.length+totalSize files+4095)/4096*4096+1 := by
    rw [followed, ← List.append_assoc, List.length_append, List.length_append, padded_length, body_length files h]
    rfl
  have hfit := h.fits
  exact holding_placed _ _ (by omega)

theorem after_data_nonzero {files : List SourceFile} {ram : Ram} {b : Word} (h : Accepted files)
    (hplaced : Placed ram b (followed files)) (hdata : files.flatMap SourceFile.data = []) :
    ram (rowAt (b+4#32) files.length) ≠ 0#8 := by
  obtain ⟨x,xs,hxs⟩ : ∃ x xs, padding (imageBody files).length ++ [0xFF#8] = x::xs :=
    List.exists_cons_of_ne_nil (by simp)
  have hx : x ≠ 0#8 := by
    have hm : x ∈ padding (imageBody files).length ++ [0xFF#8] := hxs ▸ List.mem_cons_self
    rcases List.mem_append.mp hm with hm | hm
    · exact padding_nonzero hm
    · rw [List.mem_singleton.mp hm]
      decide
  have hsize : totalSize files = 0 := by
    have hl := congrArg List.length hdata
    simpa [List.length_flatMap, totalSize] using hl
  have hrest := (placed_append hplaced).2
  rw [hxs, body_length files h, hsize, Nat.add_zero, BitVec.ofNat_add, ← BitVec.add_assoc] at hrest
  exact fun hz => hx ((placed_head hrest).symm.trans hz)

theorem fieldsEnd_of_followed {files : List SourceFile} {ram : Ram} (fs : FileSystem) (h : Accepted files)
    (hplaced : Placed ram fs.partitionBeginOffset (followed files))
    (hopens : ∀ f ∈ files, ∃ block node, initrdOpen ram fs f.name block = some node) : FieldsEnd files := by
  intro pre f post hsplit hlen
  have hbody := (placed_append hplaced).1
  obtain ⟨block,node,hopen⟩ := hopens f (by rw [hsplit]; simp)
  have hzero := after_field_of_open h hbody hsplit hlen hopen
  split
  · rename_i hpost
    subst hpost
    have hcount : files.length = pre.length+1 := by rw [hsplit, List.length_append]; rfl
    cases hdata : files.flatMap SourceFile.data with
    | nil =>
      rw [← hcount] at hzero
      exact absurd hzero (after_data_nonzero h hplaced hdata)
    | cons x xs =>
      have hx := after_last_field h hbody hsplit (x := x) (by rw [hdata]; rfl)
      rw [← hx]
      exact congrArg some hzero
  · rename_i hpost
    rw [after_inner_field h hbody hsplit hpost] at hzero
    exact (ofNat_byte_eq_zero _).mp hzero

theorem fieldsEnd_of_opens {files : List SourceFile} (h : Accepted files) (hopens : OpensNames files) :
    FieldsEnd files := by
  obtain ⟨image,himage,hram⟩ := hopens
  rw [createInitrd_eq files h, Option.some.injEq] at himage
  have hfollowed : followed files = image ++ [0xFF#8] := by rw [followed, ← List.append_assoc, himage]
  obtain ⟨ram,hplaced⟩ : ∃ ram : Ram, Placed ram 0#32 (followed files) := ⟨_,followed_placed h⟩
  apply fieldsEnd_of_followed ⟨0#32, 0#32⟩ h hplaced
  intro f hf
  rw [hfollowed] at hplaced
  obtain ⟨node,hopen,-⟩ := (hram ram ⟨0#32, 0#32⟩ (placed_append hplaced).1 f.name 1#32 (h.noNul f hf)
    (by decide)).1 f hf (skipSlash_of_noSlash (h.noSlash f hf)).symm
  exact ⟨1#32,node,hopen⟩

/-- The names the generator accepts are found precisely when every one that
fills its field is followed by a zero byte of the image. -/
theorem initrd_names_iff (files : List SourceFile) (h : Accepted files) : OpensNames files ↔ FieldsEnd files :=
  ⟨fieldsEnd_of_opens h,opens_of_fieldsEnd h⟩

def longName : List Byte := List.replicate 20 0x61#8

def longFile (data : List Byte) : List SourceFile := [⟨longName, data⟩]

theorem longName_fits : longName.length ≤ nameSize ∧ 0#8 ∉ longName ∧ 0x2f#8 ∉ longName := by decide

theorem longFile_accepted (x : Byte) : Accepted (longFile [x]) := by
  obtain ⟨hfit,hnul,hslash⟩ := longName_fits
  exact ⟨List.nodup_singleton _,by simpa [longFile] using hfit,by simpa [longFile] using hnul,
    by simpa [longFile] using hslash,by simp [longFile, totalSize]⟩

theorem longFile_fieldsEnd (x : Byte) : FieldsEnd (longFile [x]) ↔ x = 0#8 := by
  constructor
  · intro h
    have hend := h [] ⟨longName, [x]⟩ [] rfl (List.length_replicate)
    simpa [longFile] using hend
  · rintro rfl pre f post hsplit -
    have hpost : post = [] := by
      cases pre with
      | nil => exact (List.cons.inj hsplit).2.symm
      | cons g pre => simp [longFile] at hsplit
    rw [if_pos hpost]
    rfl

theorem longFile_zero_opens : Accepted (longFile [0#8]) ∧ OpensNames (longFile [0#8]) :=
  ⟨longFile_accepted 0#8,(initrd_names_iff _ (longFile_accepted 0#8)).mpr ((longFile_fieldsEnd 0#8).mpr rfl)⟩

/-- With any other first byte of data the file cannot be opened. -/
theorem longFile_one_lost : ¬ OpensNames (longFile [1#8]) := by
  intro h
  have hend := fieldsEnd_of_opens (longFile_accepted 1#8) h
  exact absurd ((longFile_fieldsEnd 1#8).mp hend) (by decide)

end MikeOS.InitrdNames
