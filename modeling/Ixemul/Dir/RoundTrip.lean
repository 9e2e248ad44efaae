/-
# Ixemul.Dir.RoundTrip — what is put into a directory file is read out of it.

The record of an entry is a list of bytes (`record`).  The buffer holds the records of the entries that
were added (`Holds`), with everything that was written below its end: one growth by BUFINCR is enough for
a record, which has at most 266 bytes.  What lies ahead of a file is such a list as well (`rest`); every
`readdir` takes one record off it, and returns 0 where there is none.  `telldir` and `seekdir` name a
place in the file, and the file does not change.
-/
import Ixemul.Dir.Model

namespace Ixemul.Dir

open Lib.Bytes
open List

/-! ## Records -/

/-- A name of 1 to 254 bytes without NUL. -/
structure Entry.Valid (e : Entry) : Prop where
  pos : 1 ≤ e.name.length
  short : e.name.length ≤ 254
  noNul : ∀ c ∈ e.name, c ≠ 0

def padding (len : Nat) : List Byte := if len % 2 = 1 then [0] else []

def record (e : Entry) : List Byte :=
  be32 e.key ++ (be32 e.isDir ++ (be32 (BitVec.ofNat 32 (namelen e.name.length)) ++
    (e.name ++ padding e.name.length)))

theorem length_padding (len : Nat) : len + (padding len).length = namelen len := by
  unfold padding namelen
  split <;> rfl

theorem namelen_bounds (len : Nat) : len ≤ namelen len ∧ namelen len ≤ len + 1 := by
  unfold namelen
  split <;> omega

variable {e : Entry}

theorem Entry.Valid.namelen_le (h : e.Valid) : namelen e.name.length ≤ 254 := by
  have := h.short
  unfold namelen
  split <;> omega

/-! ## Building -/

/-- The buffer holds these bytes, and they fit. -/
structure Holds (b : Buffer) (bs : List Byte) : Prop where
  bytes : read b.buf 0 b.bp = bs
  fits : b.bp ≤ b.bufSize

section Put

variable (b : Buffer) (e : Entry)

theorem read_key : read (putItem b e).buf b.bp 4 = be32 e.key := by
  simp only [putItem, fileDirSize]
  rw [read_write_apart (.inl (by omega))]
  split
  all_goals
    repeat rw [read_write_apart (.inl (by omega))]
    exact read_write_self

theorem read_isDir : read (putItem b e).buf (b.bp + 4) 4 = be32 e.isDir := by
  simp only [putItem, fileDirSize]
  rw [read_write_apart (.inl (by omega))]
  split
  all_goals
    repeat rw [read_write_apart (.inl (by omega))]
    exact read_write_self

theorem read_namelen :
    read (putItem b e).buf (b.bp + 8) 4 = be32 (BitVec.ofNat 32 (namelen e.name.length)) := by
  simp only [putItem, fileDirSize, namelen]
  rw [read_write_apart (.inl (by omega))]
  split
  · exact read_write_self
  · exact read_write_self

theorem read_padding : read (putItem b e).buf (b.bp + 12 + e.name.length) (padding e.name.length).length =
    padding e.name.length := by
  unfold padding
  split
  · next hodd =>
    simp only [putItem, fileDirSize, if_pos hodd]
    -- the zero is written before the name, and before the length the second time
    rw [read_write_apart (.inr (by omega)), read_write_apart (.inr (by simp only [length_be32]; omega))]
    exact read_write_self
  · rfl

/-- What `add_item` writes is the record, byte for byte. -/
theorem read_putItem : read (putItem b e).buf b.bp (namelen e.name.length + fileDirSize) = record e := by
  have hsplit : namelen e.name.length + fileDirSize =
      4 + (4 + (4 + (e.name.length + (padding e.name.length).length))) := by
    rw [length_padding, fileDirSize]
    omega
  have hname : read (putItem b e).buf (b.bp + 12) e.name.length = e.name := read_write_self
  rw [hsplit, read_add, read_add, read_add, read_add, record]
  rw [read_key, read_isDir, read_namelen, hname, read_padding]

/-- What lies below is left alone. -/
theorem read_putItem_before : read (putItem b e).buf 0 b.bp = read b.buf 0 b.bp := by
  simp only [putItem, fileDirSize]
  rw [read_write_apart (.inl (by omega))]
  split
  all_goals repeat rw [read_write_apart (.inl (by omega))]

end Put

variable {b : Buffer} {bs : List Byte}

theorem Holds.putItem (h : Holds b bs) (e : Entry)
    (hroom : b.bp + (namelen e.name.length + fileDirSize) ≤ b.bufSize) :
    Holds (putItem b e) (bs ++ record e) where
  bytes := by
    show read (Dir.putItem b e).buf 0 (b.bp + (namelen e.name.length + fileDirSize)) = _
    rw [read_add, read_putItem_before, h.bytes, zero_add, read_putItem]
  fits := hroom

variable {size : Nat}

/-- A growth keeps what was written. -/
theorem Holds.krealloc (h : Holds b bs) (held : Mem) (hsize : b.bufSize ≤ size) :
    Holds ⟨fun i => if i < b.bufSize then b.buf i else held i, b.bp, size⟩ bs where
  bytes := by
    rw [← h.bytes]
    apply read_congr
    intro i _ hi
    have hbelow : i < b.bufSize := (zero_add b.bp ▸ hi).trans_le h.fits
    exact if_pos hbelow
  fits := h.fits.trans hsize

variable {alloc : Nat → Option Mem} {b' : Buffer}

/-- `add_item` where it gets the memory it needs: one growth is enough, and every byte lands inside the
buffer. -/
theorem Holds.addItem (h : Holds b bs) (he : e.Valid) (hadd : addItem alloc b e = some b') :
    Holds b' (bs ++ record e) := by
  have hlen := namelen_bounds e.name.length
  have hshort := he.short
  have hfits := h.fits
  unfold Dir.addItem at hadd
  split at hadd
  · obtain ⟨grown, hgrown, rfl⟩ := Option.map_eq_some_iff.mp hadd
    obtain ⟨held, -, rfl⟩ := Option.map_eq_some_iff.mp hgrown
    apply (h.krealloc held (Nat.le_add_right b.bufSize bufincr)).putItem
    show b.bp + (namelen e.name.length + fileDirSize) ≤ b.bufSize + bufincr
    simp only [fileDirSize, bufincr]
    omega
  · cases hadd
    apply h.putItem e
    omega

/-- **The buffer holds the records of all entries added**, in order. -/
theorem Holds.addItems {es : List Entry} (hes : ∀ e ∈ es, e.Valid)
    (h : Holds b bs) (hadd : addItems alloc b es = some b') :
    Holds b' (bs ++ es.flatMap record) := by
  induction es generalizing b bs with
  | nil =>
    cases hadd
    simpa using h
  | cons e es ih =>
    obtain ⟨b₁, hb₁, hrest⟩ := Option.bind_eq_some_iff.mp hadd
    have h₁ := h.addItem (hes e mem_cons_self) hb₁
    have h₂ := ih (fun e' he' => hes e' (mem_cons_of_mem e he')) h₁ hrest
    simpa using h₂

/-- With memory for every growth all entries are added. -/
theorem isSome_addItems (halloc : ∀ n, (alloc n).isSome) (b : Buffer)
    (es : List Entry) : (addItems alloc b es).isSome := by
  induction es generalizing b with
  | nil => rfl
  | cons e es ih =>
    have hadd : (addItem alloc b e).isSome := by
      unfold addItem
      split
      · rw [Option.isSome_map, krealloc, Option.isSome_map]
        exact halloc _
      · rfl
    obtain ⟨b₁, hb₁⟩ := Option.isSome_iff_exists.mp hadd
    rw [addItems, hb₁]
    exact ih b₁

theorem holds_null (m : Mem) : Holds (Buffer.null m) [] := ⟨rfl, le_refl 0⟩

/-! ## Reading bytes -/

/-- What lies ahead in the file. -/
def MemFile.rest (f : MemFile) : List Byte := read f.mfBuffer f.mfOffset (f.stSize - f.mfOffset)

/-- The same file, perhaps at another place. -/
def MemFile.Same (f f' : MemFile) : Prop := f'.mfBuffer = f.mfBuffer ∧ f'.stSize = f.stSize

variable {f : MemFile}

theorem MemFile.Same.trans {f' f'' : MemFile} (h : f.Same f') (h' : f'.Same f'') : f.Same f'' :=
  ⟨h'.1.trans h.1, h'.2.trans h.2⟩

theorem mread_same (f : MemFile) (len : Nat) : f.Same (mread f len).2 := ⟨rfl, rfl⟩

theorem mread_bytes (f : MemFile) (len : Nat) : (mread f len).1 = f.rest.take len := by
  show read f.mfBuffer f.mfOffset (f.realLen len) = _
  unfold MemFile.realLen MemFile.rest
  split
  · rw [take_of_length_le (by rw [length_read]; omega)]
  · rw [take_read (by omega)]

/-- `__mread` takes bytes off the front of what lies ahead. -/
theorem mread_rest (f : MemFile) (len : Nat) : (mread f len).2.rest = f.rest.drop len := by
  show read f.mfBuffer (f.mfOffset + f.realLen len) (f.stSize - (f.mfOffset + f.realLen len)) = _
  unfold MemFile.realLen MemFile.rest
  split
  · have hend : f.stSize - (f.mfOffset + (f.stSize - f.mfOffset)) = 0 := by omega
    rw [drop_of_length_le (by rw [length_read]; omega), hend]
    rfl
  · rw [drop_read (by omega), Nat.sub_sub]

theorem readWord_same (f : MemFile) (old : BitVec 32) : f.Same (readWord f old).file := mread_same f 4

variable {tail : List Byte}

theorem readWord_of_rest {w : BitVec 32} (h : f.rest = be32 w ++ tail)
    (old : BitVec 32) :
    (readWord f old).got = 4 ∧ (readWord f old).word = w ∧ (readWord f old).file.rest = tail := by
  have htake : (mread f 4).1 = be32 w := by rw [mread_bytes, h, take_left' (length_be32 w)]
  refine ⟨?_, ?_, ?_⟩
  · show (mread f 4).1.length = 4
    rw [htake, length_be32]
  · show ofBe32 ((mread f 4).1 ++ (be32 old).drop (mread f 4).1.length) = w
    rw [htake, ofBe32_be32_append]
  · show (mread f 4).2.rest = tail
    rw [mread_rest, h, drop_left' (length_be32 w)]

theorem readWord_of_end (h : f.rest = []) (old : BitVec 32) :
    (readWord f old).got = 0 ∧ (readWord f old).file.rest = [] := by
  refine ⟨?_, ?_⟩
  · show (mread f 4).1.length = 0
    rw [mread_bytes, h]
    rfl
  · show (mread f 4).2.rest = []
    rw [mread_rest, h]
    rfl

/-! ## Reading an entry -/

/-- `d_name` after a name and its padding were read into it, behind the zero that was put there first. -/
def nameField (m : Mem) (name : List Byte) : Mem :=
  write (write m (namelen name.length) [0]) 0 (name ++ padding name.length)

section NameField

variable (m : Mem) (name : List Byte)

theorem length_field : (name ++ padding name.length).length = namelen name.length := by
  rw [length_append, length_padding]

theorem read_nameField : read (nameField m name) 0 name.length = name := by
  have hall : read (nameField m name) 0 (name ++ padding name.length).length =
      name ++ padding name.length := read_write_self
  rw [length_append, read_add] at hall
  exact (append_inj hall length_read).1

theorem nameField_nul : nameField m name name.length = 0 := by
  unfold nameField
  by_cases hodd : name.length % 2 = 1
  · -- the padding is the zero
    have hin : name.length < 0 + (name ++ padding name.length).length := by
      rw [length_field, namelen, if_pos hodd]
      omega
    rw [write_inside (Nat.zero_le _) hin]
    simp [padding, hodd]
  · have hlen : namelen name.length = name.length := if_neg hodd
    rw [write_outside (.inr (by rw [length_field, hlen]; omega)), hlen,
      write_inside le_rfl (by simp)]
    simp

/-- The last byte of the field is a character exactly if the name has an even length. -/
theorem nameField_last (hpos : 1 ≤ name.length) (hnul : ∀ c ∈ name, c ≠ 0) :
    nameField m name (namelen name.length - 1) ≠ 0 ↔ name.length % 2 = 0 := by
  by_cases hodd : name.length % 2 = 1
  · have hlen : namelen name.length - 1 = name.length := by
      rw [namelen, if_pos hodd, Nat.add_sub_cancel]
    rw [hlen, nameField_nul]
    simp [hodd]
  · have hlen : namelen name.length = name.length := if_neg hodd
    have hin : name.length - 1 < 0 + (name ++ padding name.length).length := by
      rw [length_field, hlen]
      omega
    have heven : name.length % 2 = 0 := by omega
    rw [hlen, nameField, write_inside (Nat.zero_le _) hin]
    simp only [heven, iff_true, get_eq_getElem, Nat.sub_zero]
    rw [getElem_append_left (by omega)]
    exact hnul _ (getElem_mem _)

end NameField

/-- What `readdir` shows of an entry. -/
structure Shows (e : Entry) (ent : Dirent) : Prop where
  fileno : ent.dFileno = e.key
  type : ent.dType = if e.isDir ≠ 0 then dtDir else dtReg
  namlen : ent.dNamlen.toNat = e.name.length
  name : read ent.dName 0 e.name.length = e.name
  nul : ent.dName e.name.length = 0

variable {d : DIR}

/-- The name is read back without its padding. -/
theorem readName_of_rest (he : e.Valid)
    (h : d.file.rest = e.name ++ padding e.name.length ++ tail) (hno : d.ddEnt.dFileno = e.key)
    (htype : d.ddEnt.dType = if e.isDir ≠ 0 then dtDir else dtReg) :
    (readName d (namelen e.name.length)).1 ∧ Shows e (readName d (namelen e.name.length)).2.ddEnt ∧
      (readName d (namelen e.name.length)).2.file.rest = tail := by
  have hread : (mread d.file (namelen e.name.length)).1 = e.name ++ padding e.name.length := by
    rw [mread_bytes, h, take_left' (length_field e.name)]
  have hrest : (mread d.file (namelen e.name.length)).2.rest = tail := by
    rw [mread_rest, h, drop_left' (length_field e.name)]
  have hpos := he.pos
  have hne : (mread d.file (namelen e.name.length)).1.length ≠ 0 := by
    rw [hread, length_append]
    omega
  have hshort := he.short
  unfold readName
  simp only [hread, length_field] at hne ⊢
  rw [if_neg hne]
  refine ⟨rfl, ⟨hno, htype, ?_, read_nameField _ _, nameField_nul _ _⟩, hrest⟩
  show (((if nameField d.ddEnt.dName e.name (namelen e.name.length - 1) ≠ 0
    then BitVec.ofNat 8 (namelen e.name.length) + 1 else BitVec.ofNat 8 (namelen e.name.length)) - 1 :
      BitVec 8)).toNat = e.name.length
  have hlast := nameField_last d.ddEnt.dName e.name he.pos he.noNul
  -- one more where there was no padding, and one less in any case
  have hlen : ((if nameField d.ddEnt.dName e.name (namelen e.name.length - 1) ≠ 0
      then BitVec.ofNat 8 (namelen e.name.length) + 1 else BitVec.ofNat 8 (namelen e.name.length)) :
        BitVec 8) = BitVec.ofNat 8 e.name.length + 1 := by
    by_cases hodd : e.name.length % 2 = 1
    · rw [if_neg (by rw [hlast]; omega), namelen, if_pos hodd, BitVec.ofNat_add]
      rfl
    · rw [if_pos (by rw [hlast]; omega), namelen, if_neg hodd]
  rw [hlen, BitVec.add_sub_cancel, BitVec.toNat_ofNat]
  omega

/-- **One `readdir` takes one record off** and shows its entry. -/
theorem readdir_of_rest (he : e.Valid)
    (h : d.file.rest = record e ++ tail) (l : BitVec 32) :
    (readdir l d).1 ∧ Shows e (readdir l d).2.ddEnt ∧ (readdir l d).2.file.rest = tail := by
  simp only [record, append_assoc] at h
  obtain ⟨hgot₁, hword₁, hrest₁⟩ := readWord_of_rest h d.ddEnt.dFileno
  obtain ⟨hgot₂, hword₂, hrest₂⟩ := readWord_of_rest hrest₁ l
  obtain ⟨hgot₃, hword₃, hrest₃⟩ := readWord_of_rest hrest₂ e.isDir
  have hlen : (BitVec.ofNat 32 (namelen e.name.length)).toNat = namelen e.name.length := by
    have := he.namelen_le
    rw [BitVec.toNat_ofNat]
    omega
  unfold readdir
  simp only [hgot₁, hgot₂, hword₂, hgot₃, hword₃, hlen, Nat.reduceEqDiff, if_false]
  apply readName_of_rest he
  · rw [hrest₃, append_assoc]
  · exact hword₁
  · rfl

/-- At the end `readdir` returns 0, as often as it is called. -/
theorem readdir_of_end (h : d.file.rest = []) (l : BitVec 32) :
    (readdir l d).1 = false ∧ (readdir l d).2.file.rest = [] := by
  obtain ⟨hgot, hrest⟩ := readWord_of_end h d.ddEnt.dFileno
  unfold readdir
  simp only [hgot, if_true]
  exact ⟨trivial, hrest⟩

theorem readName_same (d : DIR) (l : Nat) : d.file.Same (readName d l).2.file := by
  unfold readName
  dsimp only
  split
  · exact mread_same d.file l
  · exact mread_same d.file l

theorem readdir_same (l : BitVec 32) (d : DIR) : d.file.Same (readdir l d).2.file := by
  have h₁ := readWord_same d.file d.ddEnt.dFileno
  unfold readdir
  dsimp only
  split
  · exact h₁
  have h₂ := h₁.trans (readWord_same _ l)
  split
  · exact h₂
  have h₃ := h₂.trans (readWord_same _ (readWord (readWord d.file d.ddEnt.dFileno).file l).word)
  split
  · exact h₃
  · exact h₃.trans (readName_same _ _)

/-! ## Reading the directory -/

section Reading

variable (junk : DIR → BitVec 32) {es : List Entry} {d : DIR}

/-- All entries come out, in the order in which they were added. -/
theorem readAll_of_rest (hes : ∀ e ∈ es, e.Valid) (h : d.file.rest = es.flatMap record) :
    ∃ ents, readAll junk (es.length + 1) d = some ents ∧ List.Forall₂ Shows es ents := by
  induction es generalizing d with
  | nil =>
    refine ⟨[], ?_, .nil⟩
    rw [readAll, if_neg (by rw [(readdir_of_end h (junk d)).1]; exact Bool.false_ne_true)]
  | cons e es ih =>
    obtain ⟨htrue, hshows, hrest⟩ := readdir_of_rest (hes e mem_cons_self) h (junk d)
    obtain ⟨ents, hents, hall⟩ := ih (fun e' he' => hes e' (mem_cons_of_mem e he')) hrest
    refine ⟨_, ?_, .cons hshows hall⟩
    rw [length_cons, readAll, if_pos htrue, hents]
    rfl

theorem readSome_rest (hes : ∀ e ∈ es, e.Valid) (n : Nat) (h : d.file.rest = es.flatMap record) :
    (readSome junk n d).file.rest = (es.drop n).flatMap record := by
  induction n generalizing d es with
  | zero => exact h
  | succ n ih =>
    rw [readSome]
    cases es with
    | nil => simpa using ih hes (readdir_of_end h (junk d)).2
    | cons e =>
      exact ih (fun e' he' => hes e' (mem_cons_of_mem e he'))
        (readdir_of_rest (hes e mem_cons_self) h (junk d)).2.2

theorem readSome_same (n : Nat) (d : DIR) : d.file.Same (readSome junk n d).file := by
  induction n generalizing d with
  | zero => exact ⟨rfl, rfl⟩
  | succ n ih => exact (readdir_same (junk d) d).trans (ih _)

end Reading

theorem clip_of_le {off : Nat} (h : off ≤ size) : clip size off = off := by
  rw [clip, if_neg (by omega), if_neg (by omega)]
  rfl

theorem telldir_spec (d : DIR) : telldir d = (d.file.mfOffset, d) := by
  have hclip : clip d.file.stSize (d.file.realOff 0 .incr) = d.file.mfOffset := by
    exact clip_of_le d.file.inside
  simp only [telldir, lseek, hclip]

/-- `seekdir` leads back to what lay ahead at the `telldir`. -/
theorem seekdir_rest {d' : DIR} (h : d.file.Same d'.file) :
    (seekdir d' d.file.mfOffset).file.rest = d.file.rest := by
  have hclip : clip d'.file.stSize (d'.file.realOff d.file.mfOffset .set) = d.file.mfOffset := by
    apply clip_of_le
    rw [h.2]
    exact d.file.inside
  simp only [seekdir, lseek, MemFile.rest, hclip]
  rw [h.1, h.2]

theorem Holds.rest (h : Holds b bs) : b.file.rest = bs := h.bytes

/-- Entries that are added to an empty buffer are read back, from the start and from wherever `telldir`
was called.  `n` calls come before `telldir`, `k` between it and `seekdir`. -/
theorem readdir_of_addItems (alloc : Nat → Option Mem) (m : Mem) (junk : DIR → BitVec 32)
    (es : List Entry) (hes : ∀ e ∈ es, e.Valid) :
    ((∀ n, (alloc n).isSome) → (addItems alloc (Buffer.null m) es).isSome) ∧
    ∀ b, addItems alloc (Buffer.null m) es = some b → ∀ d : DIR, d.file = b.file →
      (∃ fuel ents, readAll junk fuel d = some ents ∧ List.Forall₂ Shows es ents) ∧
      ∀ n k, ∃ fuel ents,
        readAll junk fuel (seekdir (readSome junk k (telldir (readSome junk n d)).2)
          (telldir (readSome junk n d)).1) = some ents ∧
        List.Forall₂ Shows (es.drop n) ents := by
  refine ⟨fun halloc => isSome_addItems halloc _ es, ?_⟩
  intro b hb d hd
  have hholds := (holds_null m).addItems hes hb
  have hrest : d.file.rest = es.flatMap record := by rw [hd]; exact hholds.rest
  refine ⟨⟨_, readAll_of_rest junk hes hrest⟩, ?_⟩
  intro n k
  rw [telldir_spec]
  have hthere : (seekdir (readSome junk k (readSome junk n d)) (readSome junk n d).file.mfOffset).file.rest =
      (es.drop n).flatMap record := by
    rw [seekdir_rest (readSome_same junk k _)]
    exact readSome_rest junk hes n hrest
  exact ⟨_, readAll_of_rest junk (fun e he => hes e (mem_of_mem_drop he)) hthere⟩

/-- A directory "ab" and a file "c": a name that needs no padding, and one that does. -/
def abAndC : List Entry := [⟨7, 1, [97, 98]⟩, ⟨9, 0, [99]⟩]

theorem valid_abAndC : ∀ e ∈ abAndC, e.Valid := by
  intro e he
  simp only [abAndC, mem_cons, not_mem_nil, or_false] at he
  rcases he with rfl | rfl
  · exact ⟨by decide, by decide, by decide⟩
  · exact ⟨by decide, by decide, by decide⟩

theorem readdir_abAndC :
    ∃ b, addItems (fun _ => some fun _ => 0xff) (Buffer.null fun _ => 0) abAndC = some b ∧
      ∀ d : DIR, d.file = b.file →
        (∃ fuel ents, readAll (fun _ => 5) fuel d = some ents ∧ List.Forall₂ Shows abAndC ents) ∧
        ∀ n k, ∃ fuel ents,
          readAll (fun _ => 5) fuel (seekdir (readSome (fun _ => 5) k (telldir (readSome (fun _ => 5) n d)).2)
            (telldir (readSome (fun _ => 5) n d)).1) = some ents ∧
          List.Forall₂ Shows (abAndC.drop n) ents := by
  obtain ⟨hsome, hread⟩ := readdir_of_addItems (fun _ => some fun _ => 0xff) (fun _ => 0) (fun _ => 5)
    abAndC valid_abAndC
  obtain ⟨b, hb⟩ := Option.isSome_iff_exists.mp (hsome fun _ => rfl)
  exact ⟨b, hb, hread b hb⟩

end Ixemul.Dir
