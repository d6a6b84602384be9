import Xv6Paging.FileSystem.MkfsImage

/-! # When mkfs builds a consistent image

The files of the command line and the root directory are followed through `main`. At the
end the size of the root directory is rounded up to one block more than it fills, which is
one block too many exactly when its entries fill their blocks.
-/
namespace Xv6Paging.Mkfs
open WordPage Sector Ownership Fs Function
variable {m m' : Image} {d : Disk} {files : List InputFile} {f : InputFile} {i : ℕ}

def rootEntries (files : List InputFile) : List (ℕ → Byte) :=
  dirent rootIno [46] :: dirent rootIno [46,46] :: files.mapIdx fun k f => dirent (k+2) f.stored

def totalBlocks (files : List InputFile) : ℕ :=
  nmeta+blocksFor (direntSize*(files.length+2))+(files.map fun f => blocksFor f.length).sum

/-- The files that mkfs can store: their names are distinct names of a directory, and there are enough
inodes and blocks. -/
structure Fits (files : List InputFile) : Prop where
  names : ∀ f ∈ files, 47 ∉ f.name
  distinct : (files.map fun f => f.stored.take dirSiz).Nodup
  inodes : files.length+1 ≤ nInodes-1
  lengths : ∀ f ∈ files, f.length ≤ maxFile*bSize
  blocks : totalBlocks files ≤ fsSize

structure Stored (files : List InputFile) (m : Image) : Prop where
  good : Good m
  freeinode : m.freeinode = files.length+2
  rootSize : (m.contents rootIno).size = direntSize*(files.length+2)
  entries : ∀ k e, (rootEntries files)[k]? = some e →
    ∀ j < direntSize, (m.contents rootIno).data (direntSize*k+j) = e j
  file : ∀ k f, files[k]? = some f →
    (m.contents (k+2)).size = f.length ∧ ∀ o < f.length, (m.contents (k+2)).data o = f.data o
  free : m.freeblock = totalBlocks files

theorem copyLoop_spec {inum : ℕ} (hi : rootIno ≤ inum) (hlt : inum < nInodes) (hmax : f.length ≤ maxFile*bSize)
    (fuel pos : ℕ) (h : Good m) (hlive : inum < m.freeinode) (hpos : (m.contents inum).size = pos) (hle : pos ≤ f.length)
    (hdata : ∀ o < pos, (m.contents inum).data o = f.data o) (hfuel : f.length-pos ≤ fuel)
    (hroom : m.freeblock+blocksFor f.length ≤ fsSize+blocksFor pos) :
    Outcome (copyLoop f inum fuel pos m) (fun m' => Good m' ∧ (m'.contents inum).size = f.length ∧
      (∀ o < f.length, (m'.contents inum).data o = f.data o) ∧ (∀ j, j ≠ inum → m'.contents j = m.contents j) ∧
      m'.freeblock+blocksFor pos = m.freeblock+blocksFor f.length ∧ m'.freeinode = m.freeinode) fun _ => False := by
  induction fuel generalizing pos m with
  | zero =>
    obtain rfl : pos = f.length := by omega
    rw [copyLoop,if_neg (lt_irrefl _)]
    exact Outcome.ok ⟨h,hpos,hdata,fun _ _ => rfl,rfl,rfl⟩
  | succ fuel ih =>
    rw [copyLoop]
    split
    · next hmore =>
      have hb : bSize = 512 := rfl
      have hcc : 0 < min bSize (f.length-pos) ∧ pos+min bSize (f.length-pos) ≤ f.length := by omega
      generalize min bSize (f.length-pos) = cc at hcc ⊢
      have hmono := blocksFor_mono hcc.2
      have happ := iappend_spec h ⟨hi,hlive⟩ hlt (fun k => f.data (pos+k)) hcc.1 (by omega) (by rw [hpos]; omega)
      rw [hpos] at happ
      refine happ.bind ?_
      rintro m₁ ⟨hgood,hcont,hfree,hinode⟩
      have hself : m₁.contents inum = (m.contents inum).written pos (fun k => f.data (pos+k)) cc := by
        rw [hcont,update_self]
      have hsize : (m₁.contents inum).size = pos+cc := by
        rw [hself,Inode.written,hpos]
        exact max_eq_right (Nat.le_add_right _ _)
      have hdata₁ : ∀ o < pos+cc, (m₁.contents inum).data o = f.data o := by
        intro o ho
        rw [hself,Inode.written]
        dsimp only
        rw [blit,id]
        by_cases hpo : pos ≤ o
        · rw [if_pos ⟨hpo,ho⟩,Nat.add_sub_cancel' hpo]
        · rw [if_neg fun hc => hpo hc.1]
          exact hdata o (not_le.mp hpo)
      refine (ih (pos+cc) hgood (hinode ▸ hlive) hsize hcc.2 hdata₁ (by omega) (by omega)).post ?_
      rintro m₂ ⟨h1,h2,h3,h4,h5,h6⟩
      refine ⟨h1,h2,h3,fun j hj => ?_,by omega,h6.trans hinode⟩
      rw [h4 j hj,hcont,update_of_ne hj]
    · next hend =>
      obtain rfl : pos = f.length := by omega
      exact Outcome.ok ⟨h,hpos,hdata,fun _ _ => rfl,rfl,rfl⟩

theorem rootAppend_spec (h : Good m) (hlive : rootIno < m.freeinode) {n : ℕ} (hsize : (m.contents rootIno).size = direntSize*n)
    (hn : n < nInodes) (es : List (ℕ → Byte)) (hlen : es.length = n)
    (hes : ∀ k e, es[k]? = some e → ∀ j < direntSize, (m.contents rootIno).data (direntSize*k+j) = e j)
    (hroom : m.freeblock+blocksFor (direntSize*(n+1)) ≤ fsSize+blocksFor (direntSize*n)) (e : ℕ → Byte) :
    Outcome (iappend m rootIno e direntSize) (fun m' => Good m' ∧ (m'.contents rootIno).size = direntSize*(n+1) ∧
      (∀ k e', (es ++ [e])[k]? = some e' → ∀ j < direntSize, (m'.contents rootIno).data (direntSize*k+j) = e' j) ∧
      (∀ j, j ≠ rootIno → m'.contents j = m.contents j) ∧
      m'.freeblock+blocksFor (direntSize*n) = m.freeblock+blocksFor (direntSize*(n+1)) ∧
      m'.freeinode = m.freeinode) fun _ => False := by
  have hd : direntSize = 16 := rfl
  have hni : nInodes = 200 := rfl
  have hlim : maxFile*bSize = 71680 := rfl
  have hmul : direntSize*n+direntSize = direntSize*(n+1) := (Nat.mul_succ _ _).symm
  have happ := iappend_spec h ⟨le_refl _,hlive⟩ (by decide) e (n := direntSize) (by decide)
    (by rw [hsize,hmul,hlim,hd]; omega)
    (by rw [hsize,hmul]; exact hroom)
  rw [hsize,hmul] at happ
  refine happ.post ?_
  rintro m₁ ⟨hgood,hcont,hfree,hinode⟩
  have hself : m₁.contents rootIno = (m.contents rootIno).written (direntSize*n) e direntSize := by
    rw [hcont,update_self]
  refine ⟨hgood,?_,fun k e' hk j hj => ?_,fun j hj => ?_,hfree,hinode⟩
  · rw [hself,Inode.written,hsize,hmul]
    exact max_eq_right (by omega)
  · rw [hself,Inode.written]
    dsimp only
    rw [blit,id]
    by_cases hkn : k < n
    · rw [List.getElem?_append_left (by omega)] at hk
      rw [if_neg (by rw [hd] at hj ⊢; omega)]
      exact hes k e' hk j hj
    · rw [List.getElem?_append_right (by omega),hlen] at hk
      have hk0 : k-n = 0 := by
        by_contra hne
        rw [List.getElem?_eq_none (by simp only [List.length_singleton]; omega)] at hk
        cases hk
      rw [hk0] at hk
      cases hk
      obtain rfl : k = n := by omega
      rw [if_pos (by omega),Nat.add_sub_cancel_left]
  · rw [hcont,update_of_ne hj]

theorem rootEntries_concat (files : List InputFile) (f : InputFile) :
    rootEntries (files ++ [f]) = rootEntries files ++ [dirent (files.length+2) f.stored] := by
  simp only [rootEntries,List.mapIdx_append,List.mapIdx_cons,List.mapIdx_nil,Nat.zero_add,List.cons_append]

theorem totalBlocks_concat (files : List InputFile) (f : InputFile) :
    totalBlocks (files ++ [f])+blocksFor (direntSize*(files.length+2)) =
      totalBlocks files+blocksFor (direntSize*(files.length+2+1))+blocksFor f.length := by
  simp only [totalBlocks,List.map_append,List.sum_append,List.map_cons,List.map_nil,List.sum_cons,List.sum_nil,
    List.length_append,List.length_cons,List.length_nil]
  have h : files.length+(0+1)+2 = files.length+2+1 := by omega
  rw [h]
  omega

theorem addFile_spec (h : Stored files m) (hname : 47 ∉ f.name) (hinodes : files.length+2 < nInodes)
    (hlen : f.length ≤ maxFile*bSize) (hblocks : totalBlocks (files ++ [f]) ≤ fsSize) :
    Outcome (addFile m f) (Stored (files ++ [f])) fun _ => False := by
  have htotal := totalBlocks_concat files f
  have hfree := h.free
  have hinode := h.freeinode
  have hroot : rootIno = 1 := rfl
  rw [addFile,if_neg hname]
  refine (ialloc_spec h.good (by omega) (by omega) tFile (by decide)).bind ?_
  rintro ⟨inum,m₁⟩ ⟨hinum,hgood₁,hcont₁,hfree₁,hinode₁⟩
  dsimp only at hinum hgood₁ hcont₁ hfree₁ hinode₁ ⊢
  subst hinum
  have hes : (rootEntries files).length = files.length+2 := by simp only [rootEntries,List.length_cons,List.length_mapIdx]
  refine (rootAppend_spec hgood₁ (by omega) (by rw [hcont₁]; exact h.rootSize) (by omega) _ hes
    (by rw [hcont₁]; exact h.entries) (by omega) _).bind ?_
  rintro m₂ ⟨hgood₂,hsize₂,hent₂,hothers₂,hfree₂,hinode₂⟩
  -- the new inode is still empty
  have hnew : (m.contents m.freeinode).size = 0 := by
    have hdead : ¬ (super.dinode m.disk m.freeinode).type ≠ 0 := by
      rw [h.good.alive _ (by omega)]
      omega
    have hzero : table super m.disk m.freeinode = Dinode.zero := if_neg fun hc => hdead hc.2
    rw [Image.contents,hzero]
    rfl
  have hnew₂ : (m₂.contents m.freeinode).size = 0 := by
    rw [hothers₂ _ (by omega),hcont₁]
    exact hnew
  have hz : blocksFor 0 = 0 := by decide
  refine (copyLoop_spec (by omega) (by omega) hlen f.length 0 hgood₂ (by omega) hnew₂ (Nat.zero_le _)
    (fun o ho => absurd ho (Nat.not_lt_zero o)) (Nat.sub_le _ _) (by omega)).post ?_
  rintro m₃ ⟨hgood₃,hsize₃,hdata₃,hothers₃,hfree₃,hinode₃⟩
  have hroot₃ := hothers₃ rootIno (by omega)
  refine ⟨hgood₃,?_,?_,?_,fun k g hk => ?_,by omega⟩
  · rw [List.length_append,List.length_singleton]
    omega
  · rw [hroot₃,hsize₂,List.length_append,List.length_singleton,Nat.add_right_comm]
  · rw [hroot₃,rootEntries_concat,← hinode]
    exact hent₂
  · by_cases hkl : k < files.length
    · rw [List.getElem?_append_left hkl] at hk
      rw [hothers₃ _ (by omega),hothers₂ _ (by omega),hcont₁]
      exact h.file k g hk
    · rw [List.getElem?_append_right (by omega)] at hk
      have hk0 : k-files.length = 0 := by
        by_contra hne
        rw [List.getElem?_eq_none (by simp only [List.length_singleton]; omega)] at hk
        cases hk
      rw [hk0] at hk
      cases hk
      obtain rfl : k = files.length := by omega
      rw [← hinode]
      exact ⟨hsize₃,hdata₃⟩

theorem totalBlocks_le_append (files rest : List InputFile) : totalBlocks files ≤ totalBlocks (files ++ rest) := by
  have hd : direntSize = 16 := rfl
  have hmono := blocksFor_mono (show direntSize*(files.length+2) ≤ direntSize*((files ++ rest).length+2) by
    rw [hd,List.length_append]
    omega)
  simp only [totalBlocks,List.map_append,List.sum_append]
  omega

theorem addFiles_spec (rest : List InputFile) (h : Stored files m) (hf : Fits (files ++ rest)) :
    Outcome (rest.foldlM addFile m) (Stored (files ++ rest)) fun _ => False := by
  induction rest generalizing files m with
  | nil =>
    rw [List.append_nil]
    exact Outcome.ok h
  | cons f rest ih =>
    have happ : files ++ f :: rest = (files ++ [f]) ++ rest := by simp
    have hmem : f ∈ files ++ f :: rest := by simp
    have hlen := hf.inodes
    rw [List.length_append,List.length_cons] at hlen
    have hni : nInodes = 200 := rfl
    rw [List.foldlM_cons]
    refine (addFile_spec h (hf.names f hmem) (by omega) (hf.lengths f hmem) ?_).bind fun m₁ hm₁ => ?_
    · exact (totalBlocks_le_append _ _).trans (happ ▸ hf.blocks)
    · rw [happ]
      exact ih hm₁ (happ ▸ hf)

def blankImage : Image := wsect ⟨fun _ _ => 0,1,nmeta⟩ 1 superBytes

theorem blank_dinode (i : ℕ) : super.dinode blankImage.disk i = Dinode.zero := by
  have hne : super.iblock i ≠ 1 := by
    change i/8+32 ≠ 1
    omega
  have hz : blankImage.disk (super.iblock i) = fun _ => 0 :=
    update_of_ne hne superBytes fun _ _ => 0
  rw [Superblock.dinode,hz]
  exact (Dinode.ofWords_congr fun k _ => wordAt_zero _).trans rfl

theorem blank_good : Good blankImage := by
  have htable : table super blankImage.disk = fun _ => Dinode.zero := by
    funext i
    rw [table]
    split
    · exact blank_dinode i
    · rfl
  have hnone : ∀ p, Place.addr (fun _ => Dinode.zero) blankImage.sealed p = none := by
    intro p
    cases p <;> rfl
  have hblock : ∀ i bn, blockOf (fun _ => Dinode.zero) blankImage.sealed i bn = none := by
    intro i bn
    rw [blockOf]
    cases placeOf i bn with
    | none => rfl
    | some p => exact hnone p
  have hcont : ∀ i, blankImage.contents i = ⟨0,fun _ => 0⟩ := by
    intro i
    have hb : bytes (fun _ => Dinode.zero) blankImage.sealed i = fun _ => 0 := by
      funext o
      rw [bytes,hblock]
    rw [Image.contents,htable,hb]
    rfl
  have hfree : blankImage.freeblock = nmeta := rfl
  refine ⟨⟨⟨⟨fun p q c hp => ?_,fun c => ⟨?_,?_⟩,fun c hc => hc.elim⟩,fun b hb hs => ?_⟩,fun b hb => ?_,le_refl _,
    by decide⟩,fun i bn => ?_,fun i => ?_,fun i hi => ?_⟩
  · rw [htable,hnone] at hp
    cases hp
  · rintro ⟨h1,h2,h3⟩
    rw [marked_sealed h2 (by decide)] at h3
    exact absurd (of_decide_eq_true h3) (not_lt.mpr h1)
  · rintro (⟨p,hp⟩ | hc)
    · rw [htable,hnone] at hp
      cases hp
    · exact hc.elim
  · rw [marked_sealed hb (by decide)]
    exact decide_eq_true hs
  · have hb' : nmeta ≤ b := hb
    have hm : nmeta = 59 := rfl
    exact update_of_ne (by omega) _ _
  · rw [htable,hblock,hcont]
    simp
  · rw [htable,hnone,hcont]
    simp
  · rw [blank_dinode i]
    have hf : blankImage.freeinode = rootIno := rfl
    refine iff_of_false (fun hc => hc rfl) ?_
    omega

structure Finished (m : Image) (d : Disk) : Prop where
  size : ∀ i, (table super d i).size.toNat =
    if i = rootIno then ((m.contents rootIno).size/bSize+1)*bSize else (m.contents i).size
  addr : ∀ p, Place.addr (table super d) d p = Place.addr (table super m.disk) m.sealed p
  bytes : ∀ i o, bytes (table super d) d i o = (m.contents i).data o
  marked : ∀ b < fsSize, super.marked d b = decide (b < m.freeblock)
  live : ∀ i, rootIno ≤ i → i < m.freeinode → i < nInodes → super.dinode d i = table super d i

theorem finish_spec (h : Good m) (hlive : rootIno < m.freeinode) (hsize : (m.contents rootIno).size ≤ maxFile*bSize) :
    Outcome (do
      let din ← rinode m rootIno
      let m ← winode m rootIno {din with size := BitVec.ofNat 32 ((din.size.toNat/bSize+1)*bSize)}
      let m ← balloc m m.freeblock
      return m.disk) (Finished m) fun _ => False := by
  have hroot : rootIno < nInodes := by decide
  have htab := h.table_eq ⟨le_refl _,hlive⟩ hroot
  have htype : (super.dinode m.disk rootIno).type ≠ 0 := (h.alive _ hroot).mpr ⟨le_refl _,hlive⟩
  have hb : bSize = 512 := rfl
  have hlim : maxFile*bSize = 71680 := rfl
  have hhigh := h.building.high
  have hfs : fsSize = 1000 := rfl
  have hcs : (m.contents rootIno).size = (table super m.disk rootIno).size.toNat := rfl
  rw [rinode_eq hroot,← htab]
  refine (Outcome.ok (Q := (· = table super m.disk rootIno)) rfl).bind ?_
  rintro din rfl
  generalize hip : ({table super m.disk rootIno with
    size := BitVec.ofNat 32 (((table super m.disk rootIno).size.toNat/bSize+1)*bSize)} : Dinode) = ip
  have hipsize : ip.size.toNat = ((m.contents rootIno).size/bSize+1)*bSize := by
    rw [← hip,hcs,BitVec.toNat_ofNat]
    rw [hcs,hlim] at hsize
    refine Nat.mod_eq_of_lt ?_
    rw [hb]
    omega
  have hiptype : ip.type ≠ 0 := by
    rw [← hip,htab]
    exact htype
  rw [winode_eq hroot]
  refine (Outcome.ok (Q := (· = {m with disk := super.setDinode m.disk rootIno ip})) rfl).bind ?_
  rintro m₁ rfl
  dsimp only
  rw [balloc,if_pos (by rw [hb]; omega)]
  refine Outcome.ok ?_
  have hsealed := sealed_setDinode (m := m) hroot ip
  change Finished m (Image.sealed {m with disk := super.setDinode m.disk rootIno ip})
  rw [hsealed]
  have hself : super.dinode (iupdate super rootIno ip m.sealed) rootIno = ip := Superblock.dinode_setDinode _
  have hdin : ∀ k < nInodes, k ≠ rootIno → super.dinode (iupdate super rootIno ip m.sealed) k = super.dinode m.disk k :=
    fun k hk hne => (Superblock.dinode_setDinode_of_ne _ hne).trans (sealed_dinode hk)
  have htable : table super (iupdate super rootIno ip m.sealed) = update (table super m.disk) rootIno ip :=
    table_update hroot hdin (hself.symm ▸ if_neg hiptype)
  obtain ⟨-,haddr,hbytes⟩ := h.building.blocks.rewrite super_layout hroot ip (x := ip) (by rw [← hip])
  refine ⟨fun i => ?_,?_,?_,fun b hb => ?_,fun i hlow hi hlt => ?_⟩
  · rw [htable]
    split
    · next hi =>
      rw [hi,update_self]
      exact hipsize
    · next hi =>
      rw [update_of_ne hi]
      rfl
  · rw [htable]
    exact haddr
  · rw [htable]
    exact hbytes
  · exact ((super_layout.iupdate hroot ip).2 b hb).trans (marked_sealed hb hhigh)
  · refine (table_of_live hlt ?_).symm
    by_cases hi1 : i = rootIno
    · rw [hi1,hself]
      exact hiptype
    · rw [hdin i hlt hi1]
      exact (h.alive i hlt).mpr ⟨hlow,hi⟩

theorem mkfs_spec (hf : Fits files) :
    Outcome (mkfs files) (fun d => ∃ m, Stored files m ∧ Finished m d) fun _ => False := by
  have hroot : rootIno = 1 := rfl
  have hni : nInodes = 200 := rfl
  have hd : direntSize = 16 := rfl
  have h0 : blocksFor (direntSize*0) = 0 := by decide
  have h1 : blocksFor (direntSize*(0+1)) = 1 := by decide
  have h2 : blocksFor (direntSize*(0+1+1)) = 1 := by decide
  rw [mkfs]
  refine (ialloc_spec blank_good (le_refl _) (by decide) tDir (by decide)).bind ?_
  rintro ⟨rootino,m₁⟩ ⟨hinum,hgood₁,hcont₁,hfree₁,hinode₁⟩
  dsimp only at hinum hgood₁ hcont₁ hfree₁ hinode₁ ⊢
  obtain rfl : rootino = rootIno := hinum
  rw [if_neg (fun hc => hc rfl)]
  have hempty : (m₁.contents rootIno).size = direntSize*0 := by
    rw [hcont₁,Image.contents,table,blank_dinode]
    rfl
  have hinode₁' : m₁.freeinode = 2 := hinode₁
  have hfree₁' : m₁.freeblock = nmeta := hfree₁
  refine (rootAppend_spec hgood₁ (by omega) hempty (by decide) [] rfl (by simp)
    (by rw [hfree₁']; decide) _).bind ?_
  rintro m₂ ⟨hgood₂,hsize₂,hent₂,-,hfree₂,hinode₂⟩
  refine (rootAppend_spec hgood₂ (by omega) hsize₂ (by decide) _ rfl hent₂ (by
    have hm : nmeta = 59 := rfl
    have hfs : fsSize = 1000 := rfl
    omega) _).bind ?_
  rintro m₃ ⟨hgood₃,hsize₃,hent₃,-,hfree₃,hinode₃⟩
  have hstored : Stored [] m₃ := by
    refine ⟨hgood₃,by rw [List.length_nil]; omega,hsize₃,hent₃,fun k f hk => ?_,?_⟩
    · rw [List.getElem?_nil] at hk
      cases hk
    · have ht : totalBlocks [] = nmeta+1 := by decide
      omega
  refine (addFiles_spec files hstored hf).bind fun m hm => ?_
  have hlen := hf.inodes
  have hsize := hm.rootSize
  have hinode := hm.freeinode
  rw [List.nil_append] at hsize hinode hm
  refine (finish_spec hm.good (by omega) ?_).post fun d hd => ⟨m,hm,hd⟩
  have hlim : maxFile*bSize = 71680 := rfl
  rw [hsize,hlim,hd]
  omega

/-- `readi` returns the files and the entries of the root directory, every block that a size asks for is in
the data area, no two places share a block, and the free map marks exactly the blocks in use. -/
structure ImageOf (files : List InputFile) (d : Disk) : Prop where
  read : ∀ k f, files[k]? = some f → (super.dinode d (k+2)).size.toNat = f.length ∧
    ∀ dst, Fs.readi super (super.dinode d (k+2)) dst 0 f.length d =
      .ok ((f.length : ℤ),blit id dst 0 f.length f.data,super.dinode d (k+2),d)
  root : ∀ dst, ∃ dst', Fs.readi super (super.dinode d rootIno) dst 0 (direntSize*(files.length+2)) d =
      .ok (((direntSize*(files.length+2) : ℕ) : ℤ),dst',super.dinode d rootIno,d) ∧
    ∀ k e, (rootEntries files)[k]? = some e → ∀ j < direntSize, dst' (direntSize*k+j) = e j
  allocated : ∀ i bn, bn < ((table super d i).size.toNat+bSize-1)/bSize →
    ∃ b, blockOf (table super d) d i bn = some b ∧ nmeta ≤ b ∧ b < fsSize
  distinct : ∀ (p q : Place) b, p.addr (table super d) d = some b → q.addr (table super d) d = some b → p = q
  bitmap : ∀ b < fsSize, super.marked d b = true ↔ b < nmeta ∨
    (∃ i bn, bn < ((table super d i).size.toNat+bSize-1)/bSize ∧ blockOf (table super d) d i bn = some b) ∨
    ∃ i, (Place.indirect i).addr (table super d) d = some b

theorem place_cases (p : Place) : (∃ i bn, placeOf i bn = some p) ∨ ∃ i, p = .indirect i := by
  cases p with
  | direct i k => exact Or.inl ⟨i,k.val,dif_pos k.isLt⟩
  | indirect i => exact Or.inr ⟨i,rfl⟩
  | entry i j =>
    refine Or.inl ⟨i,12+j.val,?_⟩
    rw [placeOf,dif_neg (by omega),dif_pos (by omega)]
    simp

section Finish
variable (hs : Stored files m) (hd : Finished m d)
include hs hd

theorem Finished.blockOf_iff (i bn : ℕ) :
    blockOf (table super d) d i bn ≠ none ↔ bn*bSize < (m.contents i).size := by
  rw [blockOf_congr hd.addr]
  exact hs.good.own i bn

theorem Finished.read (hi : rootIno ≤ i) (hlive : i < m.freeinode) (hlt : i < nInodes) {n : ℕ}
    (hn : n = (m.contents i).size) (hsmall : n ≤ maxFile*bSize) (dst : ℕ → Byte) :
    Fs.readi super (super.dinode d i) dst 0 n d =
      .ok ((n : ℤ),blit id dst 0 n (m.contents i).data,super.dinode d i,d) := by
  have hlim : maxFile*bSize = 71680 := rfl
  have hb : bSize = 512 := rfl
  have hsize : n ≤ (table super d i).size.toNat := by
    rw [hd.size i,hn]
    split
    · next h1 =>
      rw [h1,hb]
      omega
    · rfl
  have hmin : min (0+n) (table super d i).size.toNat = n := by omega
  have hr : Fs.readi super (table super d i) dst 0 n d = _ := readi_spec dst
    (fun bn hbn => (hd.blockOf_iff hs i bn).mpr (by omega)) (by decide) (by omega)
  rw [if_neg (by omega),hmin,Nat.sub_zero,← hd.live i hi hlive hlt] at hr
  rw [hr]
  have hdata : (fun k => Fs.bytes (table super d) d i (0+k)) = (m.contents i).data := by
    funext k
    rw [Nat.zero_add]
    exact hd.bytes i k
  rw [hdata]

theorem Finished.allocated_iff : (∀ i bn, bn < ((table super d i).size.toNat+bSize-1)/bSize →
    ∃ b, blockOf (table super d) d i bn = some b ∧ nmeta ≤ b ∧ b < fsSize) ↔ (files.length+2)%32 ≠ 0 := by
  have hb : bSize = 512 := rfl
  have hds : direntSize = 16 := rfl
  have hroot := hs.rootSize
  constructor
  · intro hall hfull
    have hsize := hd.size rootIno
    rw [if_pos rfl] at hsize
    obtain ⟨b,hblock,-⟩ := hall rootIno ((m.contents rootIno).size/bSize) (by
      rw [hsize,hb]
      omega)
    have hown := (hd.blockOf_iff hs rootIno _).mp (hblock ▸ Option.some_ne_none b)
    rw [hroot,hb,hds] at hown
    omega
  · intro hfill i bn hbn
    have hlt : bn*bSize < (m.contents i).size := by
      rw [hd.size i] at hbn
      split at hbn
      · next h1 =>
        rw [h1,hroot,hds]
        rw [hroot,hds] at hbn
        rw [hb] at hbn ⊢
        omega
      · rw [hb] at hbn ⊢
        omega
    obtain ⟨b,hblock⟩ := Option.ne_none_iff_exists'.mp ((hd.blockOf_iff hs i bn).mpr hlt)
    obtain ⟨p,hp,hpb⟩ := Option.bind_eq_some_iff.mp hblock
    rw [hd.addr] at hpb
    obtain ⟨h1,h2⟩ := hs.good.building.addr_lt hpb
    exact ⟨b,hblock,h1,h2.trans_le hs.good.building.high⟩

theorem Finished.bitmap (hall : ∀ i bn, bn*bSize < (m.contents i).size → bn < ((table super d i).size.toNat+bSize-1)/bSize)
    {b : ℕ} (hb : b < fsSize) : super.marked d b = true ↔ b < nmeta ∨
      (∃ i bn, bn < ((table super d i).size.toNat+bSize-1)/bSize ∧ blockOf (table super d) d i bn = some b) ∨
      ∃ i, (Place.indirect i).addr (table super d) d = some b := by
  have hown := hs.good.building.blocks.owned
  rw [hd.marked b hb,decide_eq_true_eq]
  constructor
  · intro hlt
    by_cases hmeta : b < nmeta
    · exact Or.inl hmeta
    · have hused : DataUsed super nmeta m.sealed b :=
        ⟨not_lt.mp hmeta,hb,(marked_sealed hb hs.good.building.high).trans (decide_eq_true hlt)⟩
      obtain ⟨p,hp⟩ := ((hown.used_iff b).mp hused).resolve_right (Set.notMem_empty b)
      rw [← hd.addr] at hp
      rcases place_cases p with ⟨i,bn,hpl⟩ | ⟨i,rfl⟩
      · have hblock : blockOf (table super d) d i bn = some b := by rw [blockOf,hpl,Option.bind_some,hp]
        exact Or.inr (Or.inl ⟨i,bn,hall i bn ((hd.blockOf_iff hs i bn).mp (hblock ▸ Option.some_ne_none b)),hblock⟩)
      · exact Or.inr (Or.inr ⟨i,hp⟩)
  · have hlt : ∀ p : Place, p.addr (table super d) d = some b → b < m.freeblock := by
      intro p hp
      rw [hd.addr] at hp
      exact (hs.good.building.addr_lt hp).2
    rintro (hmeta | ⟨i,bn,-,hblock⟩ | ⟨i,hp⟩)
    · exact hmeta.trans_le hs.good.building.low
    · obtain ⟨p,-,hp⟩ := Option.bind_eq_some_iff.mp hblock
      exact hlt p hp
    · exact hlt _ hp

theorem Finished.imageOf_iff (hf : Fits files) : ImageOf files d ↔ (files.length+2)%32 ≠ 0 := by
  have hb : bSize = 512 := rfl
  have hds : direntSize = 16 := rfl
  have hni : nInodes = 200 := rfl
  have hlim : maxFile*bSize = 71680 := rfl
  have hroot : rootIno = 1 := rfl
  have hinodes := hf.inodes
  have hfree := hs.freeinode
  constructor
  · exact fun h => (hd.allocated_iff hs).mp h.allocated
  · intro hfill
    refine ⟨fun k f hk => ?_,fun dst => ?_,(hd.allocated_iff hs).mpr hfill,fun p q b hp hq => ?_,fun b hlt => ?_⟩
    · obtain ⟨hlen,hdata⟩ := hs.file k f hk
      have hkl : k < files.length := (List.getElem?_eq_some_iff.mp hk).1
      have hmem : f ∈ files := List.mem_of_getElem? hk
      have hread := hd.read hs (i := k+2) (by omega) (by omega) (by omega) hlen.symm (hf.lengths f hmem)
      refine ⟨?_,fun dst => ?_⟩
      · rw [hd.live (k+2) (by omega) (by omega) (by omega),hd.size,if_neg (by omega)]
        exact hlen
      · rw [hread dst,blit_congr id dst 0 (m.contents (k+2)).data hdata]
    · have hsize := hs.rootSize
      refine ⟨_,hd.read hs (le_refl _) (by omega) (by decide) hsize.symm (by rw [hds,hlim]; omega) dst,
        fun k e hk j hj => ?_⟩
      have hkl := (List.getElem?_eq_some_iff.mp hk).1
      simp only [rootEntries,List.length_cons,List.length_mapIdx] at hkl
      rw [blit,id,if_pos (by rw [hds] at hj ⊢; omega),Nat.sub_zero]
      exact hs.entries k e hk j hj
    · rw [hd.addr] at hp hq
      exact hs.good.building.blocks.owned.inj p q b hp hq
    · refine hd.bitmap hs (fun i bn hbn => ?_) hlt
      rw [hd.size i]
      split
      · next h1 =>
        rw [h1] at hbn
        rw [hb] at hbn ⊢
        omega
      · rw [hb] at hbn ⊢
        omega

end Finish

/-- Files that fit are always built, and the image is consistent exactly if the entries of the root
directory do not fill their last block. -/
theorem mkfs_consistent_iff (hf : Fits files) :
    ∃ d, mkfs files = .ok d ∧ (ImageOf files d ↔ (files.length+2)%32 ≠ 0) := by
  obtain ⟨d,hd,m,hm,hfin⟩ := Outcome.total_iff.mp (mkfs_spec hf)
  exact ⟨d,hd,hfin.imageOf_iff hm hf⟩

def sampleFiles (n length : ℕ) : List InputFile :=
  (List.range n).map fun k => ⟨[BitVec.ofNat 8 (97+k)],length,fun o => BitVec.ofNat 8 (k+o)⟩

theorem mkfs_consistent_one : ∃ d, mkfs (sampleFiles 1 600) = .ok d ∧ ImageOf (sampleFiles 1 600) d := by
  have hf : Fits (sampleFiles 1 600) := ⟨by decide +kernel,by decide +kernel,by decide,by decide +kernel,by decide +kernel⟩
  obtain ⟨d,hd,hiff⟩ := mkfs_consistent_iff hf
  exact ⟨d,hd,hiff.mpr (by decide)⟩

/-- With thirty files the root directory fills one block, and its rounded size asks for a second one. -/
theorem mkfs_full_directory : ¬ ∀ files, Fits files → ∃ d, mkfs files = .ok d ∧ ImageOf files d := by
  intro h
  have hf : Fits (sampleFiles 30 0) := ⟨by decide +kernel,by decide +kernel,by decide,by decide +kernel,by decide +kernel⟩
  obtain ⟨d,hd,himage⟩ := h _ hf
  obtain ⟨m,hm,hfin⟩ := (mkfs_spec hf).of_ok hd
  exact (hfin.imageOf_iff hm hf).mp himage (by decide)

end Xv6Paging.Mkfs
