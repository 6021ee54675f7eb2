import RiscvOs.Directory
set_option autoImplicit false

/-!
Names of any length in the inode table. `sfs_create` cuts a name off after 27 characters, and
`find_inode` compares the whole of it with what is stored.
-/

namespace RiscvOs.SimpleFs
open WordMemory PageAlloc CStrings Runs

/-- The file system with the heap that `sfs_format` takes its blocks from. -/
structure NameSys where
  fs : Fs
  mm : Mm

inductive NameCall where
  | init
  | format (numBlocks : U32)
  | create (name : Nat → Byte) (type : U32)
  | delete (name : Nat → Byte)

/-- Names are C strings. -/
def NameCall.Ok (_ : NameSys) : NameCall → Prop
  | .create name _ | .delete name => ∃ t, Spells name t
  | .init | .format _ => True

/-- The calls that do not take a file away. -/
def NameCall.Adds (s : NameSys) (c : NameCall) : Prop :=
  c.Ok s ∧ c ≠ .init ∧ ∀ name, c ≠ .delete name

def NameSys.exec (l : Layout) (s : NameSys) : NameCall → NameSys
  | .init => { s with fs := sfsInit s.fs }
  | .format numBlocks =>
    let r := sfsFormat l numBlocks s.fs s.mm
    ⟨r.2.1, r.2.2⟩
  | .create name type => { s with fs := (sfsCreate name type s.fs).2 }
  | .delete name => { s with fs := (sfsDelete name s.fs).2 }

/-- The name that slot `i` holds. -/
def Fs.stored (fs : Fs) (i : Fin 64) : List Byte := text sfsMaxFilename (fs.inodes i).name

def Fs.live (fs : Fs) (i : Fin 64) : Prop := (fs.inodes i).ino ≠ 0#32

def DistinctNames (fs : Fs) : Prop :=
  ∀ i j, fs.live i → fs.live j → fs.stored i = fs.stored j → i = j

/-- The file with the number `ino` is found under its name: it cannot be created a second time,
and deleting it clears its slot and no other. -/
structure FoundAgain (name : Nat → Byte) (ino : Int) (fs : Fs) : Prop where
  again : ∀ type, (sfsCreate name type fs).1 = -1
  delete : (sfsDelete name fs).1 = 0
  clears : ∃ i : Fin 64, (i.val : Int) + 1 = ino ∧ (sfsDelete name fs).2.inodes =
    Function.update fs.inodes i { fs.inodes i with ino := 0#32, type := 0#32, size := 0#32 }

def Tidy (fs : Fs) : Prop := ∀ i, SlotOk i (fs.inodes i)

section Find

variable {fs : Fs} {name : Nat → Byte} {t : List Byte} {i : Fin 64}

theorem find_finRange_iff {k : Nat} {p : Fin k → Bool} {i : Fin k} :
    (List.finRange k).find? p = some i ↔ p i = true ∧ ∀ j < i, p j = false := by
  constructor
  · exact find_finRange
  · rintro ⟨hi, hbefore⟩
    cases hf : (List.finRange k).find? p with
    | none => exact absurd hi (List.find?_eq_none.mp hf i (List.mem_finRange i))
    | some j =>
      obtain ⟨hj, hjb⟩ := find_finRange hf
      rcases lt_trichotomy i j with hlt | rfl | hlt
      · rw [hjb i hlt] at hi
        cases hi
      · rfl
      · rw [hbefore j hlt] at hj
        cases hj

/-- A slot matches a name exactly when it is in use and holds the whole name. -/
theorem Tidy.matches_iff (h : Tidy fs) (ht : Spells name t) (i : Fin 64) :
    (decide ((fs.inodes i).ino ≠ 0#32) && sameName sfsMaxFilename (fs.inodes i).name name) = true ↔
      fs.live i ∧ fs.stored i = t := by
  simp only [Bool.and_eq_true, decide_eq_true_eq]
  refine and_congr_right fun hlive => ?_
  obtain ⟨hs, hlen⟩ := (h i).spells hlive
  exact hs.sameName_iff ht hlen

theorem Tidy.findInode_some (h : Tidy fs) (ht : Spells name t) : findInode fs name = some i ↔
    (fs.live i ∧ fs.stored i = t) ∧ ∀ j < i, ¬ (fs.live j ∧ fs.stored j = t) := by
  rw [findInode, find_finRange_iff, h.matches_iff ht]
  refine and_congr_right fun _ => forall₂_congr fun j _ => ?_
  rw [← h.matches_iff ht, Bool.not_eq_true]

theorem Tidy.findInode_none (h : Tidy fs) (ht : Spells name t) : findInode fs name = none ↔
    ∀ i, fs.live i → fs.stored i ≠ t := by
  rw [findInode, List.find?_eq_none]
  constructor
  · intro hall i hlive hs
    exact hall i (List.mem_finRange i) ((h.matches_iff ht i).mpr ⟨hlive, hs⟩)
  · intro hall i _ hmatch
    obtain ⟨hlive, hs⟩ := (h.matches_iff ht i).mp hmatch
    exact hall i hlive hs

theorem Tidy.stored_length (h : Tidy fs) (hlive : fs.live i) : (fs.stored i).length ≤ 27 :=
  Nat.le_of_lt_succ ((h i).spells hlive).2

/-- A name that does not fit is never found. -/
theorem Tidy.findInode_long (h : Tidy fs) (ht : Spells name t) (hlong : 27 < t.length) :
    findInode fs name = none := by
  rw [h.findInode_none ht]
  rintro i hlive rfl
  exact absurd (h.stored_length hlive) (by omega)

end Find

section Calls

variable {l : Layout} {fs : Fs} {name : Nat → Byte} {t : List Byte} {i : Fin 64}

/-- What `sfs_create` can do. -/
inductive CreateCase (name : Nat → Byte) (type : U32) (fs : Fs) : Int × Fs → Prop
  | fails : CreateCase name type fs (-1, fs)
  | adds {i : Fin 64} {sb : Superblock} (hfind : findInode fs name = none) (hfree : ¬ fs.live i)
      (hlower : ∀ j < i, fs.live j) : CreateCase name type fs ((i.val : Int) + 1,
        { fs.setInode i (newInode (fs.inodes i) i name type) with superblock := sb })

theorem sfsCreate_case (name : Nat → Byte) (type : U32) (fs : Fs) :
    CreateCase name type fs (sfsCreate name type fs) := by
  cases hfind : findInode fs name with
  | some i =>
    rw [sfsCreate, hfind]
    exact .fails
  | none =>
    cases hfree : findFree fs with
    | none =>
      rw [sfsCreate, hfind, hfree]
      exact .fails
    | some i =>
      obtain ⟨hi, hlower⟩ := find_finRange hfree
      rw [sfsCreate_eq type hfind hfree, inoOf_toInt]
      refine .adds hfind (by simpa [Fs.live] using hi) ?_
      intro j hj
      simpa [Fs.live] using hlower j hj

theorem setInode_of_ne {x : Inode} {j : Fin 64} (hj : j ≠ i) : (fs.setInode i x).inodes j = fs.inodes j :=
  Function.update_of_ne hj ..

theorem setInode_self {x : Inode} : (fs.setInode i x).inodes i = x := Function.update_self ..

theorem Tidy.set (h : Tidy fs) {x : Inode} (hx : SlotOk i x) (sb : Superblock) :
    Tidy { fs.setInode i x with superblock := sb } := by
  intro j
  by_cases hj : j = i
  · subst hj
    rw [setInode_self]
    exact hx
  · rw [setInode_of_ne hj]
    exact h j

theorem Tidy.create (h : Tidy fs) (ht : Spells name t) (type : U32) : Tidy (sfsCreate name type fs).2 := by
  have hcase := sfsCreate_case name type fs
  generalize sfsCreate name type fs = r at hcase
  cases hcase with
  | fails => exact h
  | adds => exact h.set (newInode_ok _ ht) _

theorem Tidy.delete (h : Tidy fs) (name : Nat → Byte) : Tidy (sfsDelete name fs).2 := by
  unfold sfsDelete
  cases findInode fs name with
  | none => exact h
  | some i => exact h.set (SlotOk.free rfl) _

theorem Tidy.init (fs : Fs) : Tidy (sfsInit fs) := fun _ => SlotOk.free rfl

theorem Tidy.exec {s : NameSys} {c : NameCall} (h : Tidy s.fs) (hok : c.Ok s) : Tidy (s.exec l c).fs := by
  cases c with
  | init => exact .init s.fs
  | format numBlocks => exact h
  | create name type =>
    obtain ⟨t, ht⟩ := hok
    exact h.create ht type
  | delete name => exact h.delete name

end Calls

section Runs

variable {l : Layout} {fs : Fs} {name : Nat → Byte} {t : List Byte} {i k : Fin 64}

/-- The name that `sfs_create` leaves in its slot. -/
theorem stored_newInode {x : Inode} {sb : Superblock} {type : U32} (ht : Spells name t) :
    Fs.stored { fs.setInode i (newInode x i name type) with superblock := sb } i = t.take 27 := by
  have hlt : (t.take 27).length < sfsMaxFilename := Nat.lt_succ_of_le (List.length_take_le ..)
  show text sfsMaxFilename ((fs.setInode i (newInode x i name type)).inodes i).name = _
  rw [setInode_self, (newInode_spells x ht).text_eq hlt]

theorem live_set_of_ne {x : Inode} {sb : Superblock} {j : Fin 64} (hj : j ≠ i) :
    Fs.live { fs.setInode i x with superblock := sb } j ↔ fs.live j := by
  show ((fs.setInode i x).inodes j).ino ≠ 0#32 ↔ _
  rw [setInode_of_ne hj]
  rfl

theorem stored_set_of_ne {x : Inode} {sb : Superblock} {j : Fin 64} (hj : j ≠ i) :
    Fs.stored { fs.setInode i x with superblock := sb } j = fs.stored j := by
  show text sfsMaxFilename ((fs.setInode i x).inodes j).name = _
  rw [setInode_of_ne hj]
  rfl

/-- Slot `k` holds the file that was created under the name `t`. All slots below it are in
use, so that no later file is found before it. -/
structure Kept (k : Fin 64) (t : List Byte) (fs : Fs) : Prop where
  tidy : Tidy fs
  live : fs.live k
  stored : fs.stored k = t.take 27
  lower : ∀ j < k, fs.live j ∧ fs.stored j ≠ t

theorem Kept.of_create {type : U32} {ino : Int} {fs' : Fs} (h : Tidy fs) (ht : Spells name t)
    (hc : sfsCreate name type fs = (ino, fs')) (hpos : 0 < ino) :
    ∃ k : Fin 64, (k.val : Int) + 1 = ino ∧ Kept k t fs' := by
  have hcase := sfsCreate_case name type fs
  have htidy := h.create ht type
  rw [hc] at hcase htidy
  cases hcase with
  | fails => omega
  | @adds k sb hfind hfree hlower =>
    have hnew := (h.findInode_none ht).mp hfind
    refine ⟨k, rfl, htidy, ?_, stored_newInode ht, ?_⟩
    · show ((fs.setInode k _).inodes k).ino ≠ 0#32
      rw [setInode_self]
      exact inoOf_ne_zero k
    · intro j hj
      rw [live_set_of_ne (Fin.ne_of_lt hj), stored_set_of_ne (Fin.ne_of_lt hj)]
      exact ⟨hlower j hj, hnew j (hlower j hj)⟩

/-- Later files go to free slots, which are all above `k`. -/
theorem Kept.create (h : Kept k t fs) {other : Nat → Byte} {t' : List Byte} (ht : Spells other t')
    (type : U32) : Kept k t (sfsCreate other type fs).2 := by
  have hcase := sfsCreate_case other type fs
  have htidy := h.tidy.create ht type
  generalize sfsCreate other type fs = r at hcase htidy
  cases hcase with
  | fails => exact h
  | @adds i sb hfind hfree hlower =>
    have hne {j : Fin 64} (hj : fs.live j) : j ≠ i := by
      rintro rfl
      exact hfree hj
    refine ⟨htidy, (live_set_of_ne (hne h.live)).mpr h.live, ?_, ?_⟩
    · rw [stored_set_of_ne (hne h.live)]
      exact h.stored
    · intro j hj
      obtain ⟨hlive, hs⟩ := h.lower j hj
      rw [live_set_of_ne (hne hlive), stored_set_of_ne (hne hlive)]
      exact ⟨hlive, hs⟩

theorem Kept.exec {s : NameSys} {c : NameCall} (h : Kept k t s.fs) (hc : c.Adds s) :
    Kept k t (s.exec l c).fs := by
  obtain ⟨hok, hinit, hdelete⟩ := hc
  cases c with
  | init => exact absurd rfl hinit
  | format numBlocks => exact ⟨h.tidy, h.live, h.stored, h.lower⟩
  | create name type =>
    obtain ⟨t', ht⟩ := hok
    exact h.create ht type
  | delete name => exact absurd rfl (hdelete name)

/-- A name that fits is found in its own slot. -/
theorem Kept.findInode (h : Kept k t fs) (ht : Spells name t) (hlen : t.length ≤ 27) :
    findInode fs name = some k := by
  rw [h.tidy.findInode_some ht]
  refine ⟨⟨h.live, ?_⟩, ?_⟩
  · rw [h.stored, List.take_of_length_le hlen]
  · rintro j hj ⟨_, hs⟩
    exact (h.lower j hj).2 hs

theorem Kept.foundAgain (h : Kept k t fs) (ht : Spells name t) :
    FoundAgain name ((k.val : Int) + 1) fs ↔ t.length ≤ 27 := by
  constructor
  · intro hfound
    by_contra hlong
    have hdel := hfound.delete
    rw [sfsDelete, h.tidy.findInode_long ht (by omega)] at hdel
    cases hdel
  · intro hlen
    have hfind := h.findInode ht hlen
    refine ⟨?_, ?_, k, rfl, ?_⟩
    · intro type
      rw [sfsCreate, hfind]
      rfl
    · rw [sfsDelete, hfind]
    · rw [sfsDelete, hfind]
      rfl

/-- A name that fits and is not found is a new one. -/
theorem DistinctNames.create (h : DistinctNames fs) (htidy : Tidy fs) (ht : Spells name t)
    (hlen : t.length ≤ 27) (type : U32) : DistinctNames (sfsCreate name type fs).2 := by
  have hcase := sfsCreate_case name type fs
  generalize sfsCreate name type fs = r at hcase
  cases hcase with
  | fails => exact h
  | @adds k sb hfind hfree hlower =>
    have hnew := (htidy.findInode_none ht).mp hfind
    have hstored : Fs.stored { fs.setInode k (newInode (fs.inodes k) k name type) with superblock := sb } k = t := by
      rw [stored_newInode ht, List.take_of_length_le hlen]
    intro i j hi hj hs
    by_cases hik : i = k <;> by_cases hjk : j = k
    · rw [hik, hjk]
    · rw [hik, hstored, stored_set_of_ne hjk] at hs
      exact absurd hs.symm (hnew j ((live_set_of_ne hjk).mp hj))
    · rw [hjk, hstored, stored_set_of_ne hik] at hs
      exact absurd hs (hnew i ((live_set_of_ne hik).mp hi))
    · rw [stored_set_of_ne hik, stored_set_of_ne hjk] at hs
      exact h i j ((live_set_of_ne hik).mp hi) ((live_set_of_ne hjk).mp hj) hs

/-- A slot that is given up takes no name with it. -/
theorem DistinctNames.release (h : DistinctNames fs) {x : Inode} (hx : x.ino = 0#32) (sb : Superblock) :
    DistinctNames { fs.setInode k x with superblock := sb } := by
  have hne {j : Fin 64} (hj : Fs.live { fs.setInode k x with superblock := sb } j) : j ≠ k := by
    rintro rfl
    apply hj
    show ((fs.setInode j x).inodes j).ino = 0#32
    rw [setInode_self]
    exact hx
  intro i j hi hj hs
  rw [stored_set_of_ne (hne hi), stored_set_of_ne (hne hj)] at hs
  exact h i j ((live_set_of_ne (hne hi)).mp hi) ((live_set_of_ne (hne hj)).mp hj) hs

theorem DistinctNames.delete (h : DistinctNames fs) (name : Nat → Byte) :
    DistinctNames (sfsDelete name fs).2 := by
  unfold sfsDelete
  cases findInode fs name with
  | none => exact h
  | some k => exact h.release rfl _

theorem DistinctNames.init (fs : Fs) : DistinctNames (sfsInit fs) := fun _ _ hi => absurd rfl hi

/-- The call creates no file under a name of more than 27 characters. -/
def NameCall.Short (c : NameCall) : Prop :=
  ∀ name type, c = .create name type → ∃ t, Spells name t ∧ t.length ≤ 27

theorem DistinctNames.exec {s : NameSys} {c : NameCall} (h : DistinctNames s.fs) (htidy : Tidy s.fs)
    (hc : c.Short) : DistinctNames (s.exec l c).fs := by
  cases c with
  | init => exact .init s.fs
  | format numBlocks => exact h
  | create name type =>
    obtain ⟨t, ht, hlen⟩ := hc name type rfl
    exact h.create htidy ht hlen type
  | delete name => exact h.delete name

/-- In every state that the calls can reach, a file just created is found again under its name
exactly when the name has at most 27 characters; and while no longer name is used, no two files
hold the same name. -/
theorem created_found_iff_short (l : Layout) (fs₀ : Fs) (mm : Mm) (calls : List NameCall) (s : NameSys)
    (hrun : Run (guarded (fun s c => NameCall.Ok s c) (NameSys.exec l)) ⟨sfsInit fs₀, mm⟩ calls s) :
    (∀ name t type ino fs' later u, Spells name t → sfsCreate name type s.fs = (ino, fs') → 0 < ino →
      Run (guarded (fun s c => NameCall.Adds s c) (NameSys.exec l)) ⟨fs', s.mm⟩ later u →
      (FoundAgain name ino u.fs ↔ t.length ≤ 27)) ∧
    ((∀ c ∈ calls, c.Short) → DistinctNames s.fs) := by
  have htidy : Tidy s.fs :=
    hrun.guarded_invariant (fun s => Tidy s.fs) (fun s c h hok => h.exec hok) (.init fs₀)
  refine ⟨?_, ?_⟩
  · intro name t type ino fs' later u ht hc hpos hlater
    obtain ⟨k, rfl, hkept⟩ := Kept.of_create htidy ht hc hpos
    have hlast : Kept k t u.fs :=
      hlater.guarded_invariant (fun s => Kept k t s.fs) (fun s c h hadds => h.exec hadds) hkept
    exact hlast.foundAgain ht
  · have hhist := hrun.history
      (fun calls s => Tidy s.fs ∧ ((∀ c ∈ calls, c.Short) → DistinctNames s.fs)) ?_
      ⟨.init fs₀, fun _ => .init fs₀⟩
    · exact hhist.2
    · rintro calls s c _ ⟨htidy, hdist⟩ ⟨hok, rfl⟩
      refine ⟨htidy.exec hok, fun hshort => ?_⟩
      rw [List.forall_mem_append] at hshort
      exact (hdist hshort.1).exec htidy (hshort.2 c (List.mem_singleton_self c))

/-- The string of `n` letters `a`. -/
def letters (n : Nat) (i : Nat) : Byte := if i < n then byte 'a' else 0#8

theorem letters_spells (n : Nat) : Spells (letters n) (List.replicate n (byte 'a')) := by
  refine Spells.of_get ?_ ?_ ?_
  · intro hmem
    exact absurd (List.eq_of_mem_replicate hmem) (by decide)
  · intro i hi
    rw [List.length_replicate] at hi
    rw [List.getElem_replicate, letters, if_pos hi]
  · rw [List.length_replicate, letters, if_neg (lt_irrefl n)]

/-- Two files with names of 26 and 27 characters, and a third one after them. -/
theorem created_found_iff_short_two :
    let l : Layout := ⟨0x80200000#64, 0x80300000#64⟩
    let mm : Mm := ⟨fun _ => 0#64, 0#64, 0#64, 0x80200000#64⟩
    let junk : Inode := ⟨7#32, 7#32, 7#32, fun _ => 7#32, fun _ => 7#8⟩
    let fs₀ : Fs := ⟨⟨0#32, 0#32, 0#32, 0#32, 0#32, 0#32⟩, fun _ => junk, 0#64⟩
    let s : NameSys := [.format 16#32, .create (letters 26) 1#32].foldl (NameSys.exec l) ⟨sfsInit fs₀, mm⟩
    let r := sfsCreate (letters 27) 1#32 s.fs
    r.1 = 2 ∧ FoundAgain (letters 27) r.1 (sfsCreate (letters 5) 1#32 r.2).2 ∧ DistinctNames s.fs := by
  intro l mm junk fs₀ s r
  have hname (n : Nat) : ∃ t, Spells (letters n) t := ⟨_, letters_spells n⟩
  have hr : r.1 = 2 := by decide +kernel
  have hboth := created_found_iff_short l fs₀ mm [.format 16#32, .create (letters 26) 1#32] s
    (run_guarded_iff.mpr ⟨⟨trivial, hname 26, trivial⟩, rfl⟩)
  -- What the state is made of is not needed any more.
  clear_value s
  have hlater (fs : Fs) : Run (guarded (fun s c => NameCall.Adds s c) (NameSys.exec l)) ⟨fs, s.mm⟩
      [.create (letters 5) 1#32] ⟨(sfsCreate (letters 5) 1#32 fs).2, s.mm⟩ := by
    refine ⟨_, ⟨⟨hname 5, ?_, ?_⟩, rfl⟩, rfl⟩
    · exact NameCall.noConfusion
    · intro name
      exact NameCall.noConfusion
  refine ⟨hr, ?_, hboth.2 ?_⟩
  · have hpos : 0 < r.1 := by
      rw [hr]
      decide
    refine (hboth.1 _ _ _ r.1 r.2 _ _ (letters_spells 27) rfl hpos (hlater r.2)).mpr ?_
    rw [List.length_replicate]
  · intro c hc name type he
    rcases List.mem_pair.mp hc with rfl | rfl
    · cases he
    · cases he
      exact ⟨_, letters_spells 26, by simp⟩

/-- A name of 28 characters can be created twice and never be deleted. -/
theorem created_not_found_28 :
    let fs₀ : Fs := sfsInit ⟨⟨0#32, 0#32, 0#32, 0#32, 0#32, 0#32⟩, fun _ => ⟨0#32, 0#32, 0#32, fun _ => 0#32, fun _ => 0#8⟩, 0#64⟩
    let first := sfsCreate (letters 28) 1#32 fs₀
    let second := sfsCreate (letters 28) 1#32 first.2
    Spells (letters 28) (List.replicate 28 (byte 'a')) ∧ first.1 = 1 ∧ second.1 = 2 ∧
      sfsDelete (letters 28) first.2 = (-1, first.2) ∧ ¬ DistinctNames second.2 := by
  intro fs₀ first second
  have hdelete : findInode first.2 (letters 28) = none := by decide +kernel
  refine ⟨letters_spells 28, by decide +kernel, by decide +kernel, ?_, ?_⟩
  · rw [sfsDelete, hdelete]
  · intro hdistinct
    have hlive (i : Fin 64) (hi : i = 0 ∨ i = 1) : second.2.live i := by
      revert i
      unfold Fs.live
      decide +kernel
    have hstored : second.2.stored 0 = second.2.stored 1 := by decide +kernel
    exact absurd (hdistinct 0 1 (hlive 0 (.inl rfl)) (hlive 1 (.inr rfl)) hstored) (by decide)

end Runs

end RiscvOs.SimpleFs
