import Xv6Paging.Kernel.Config

/-! # The scan of the MP configuration table

`mpconfig` and `mpinit` of `mp.c`, from the table that `mpsearch` has found. The table is
firmware data, so its bytes are arbitrary. An entry of a type that the scan does not know
does not move the cursor, and the scan stays there. So it ends exactly for the tables that
are made of known entries.
-/
namespace Xv6Paging.Mp
open WordPage

def maxCpus : ℕ := 8

def headerSize : ℕ := 44

def length (conf : ℕ → Byte) : ℕ := (conf 4).toNat+256*(conf 5).toNat

def sum (addr : ℕ → Byte) (len : ℕ) : Byte := (List.range len).foldl (fun sum i => sum+addr i) 0

/-- The tests that `mpconfig` makes: signature, version and checksum. -/
def mpconfig (conf : ℕ → Byte) : Bool :=
  if ¬ (conf 0 = 0x50 ∧ conf 1 = 0x43 ∧ conf 2 = 0x4D ∧ conf 3 = 0x50) then false
  else if conf 6 ≠ 1 ∧ conf 6 ≠ 4 then false
  else if sum conf (length conf) ≠ 0 then false
  else true

structure Scan where
  p : ℕ
  ismp : Bool
  apicids : List Byte
  ioapicid : Byte

/-- The body of the loop. The `break` in the default case leaves the `switch`, not the loop. -/
def scanEntry (conf : ℕ → Byte) (s : Scan) : Scan :=
  if conf s.p = 0 then
    {s with
      apicids := if s.apicids.length < maxCpus then s.apicids ++ [conf (s.p+1)] else s.apicids
      p := s.p+20}
  else if conf s.p = 2 then {s with ioapicid := conf (s.p+1), p := s.p+8}
  else if conf s.p = 1 ∨ conf s.p = 3 ∨ conf s.p = 4 then {s with p := s.p+8}
  else {s with ismp := false}

def scanLoop (conf : ℕ → Byte) (e : ℕ) : ℕ → Scan → Except Fault Scan
  | 0, _ => .error .diverges
  | fuel+1, s => if s.p < e then scanLoop conf e fuel (scanEntry conf s) else .ok s

def mpinit (conf : ℕ → Byte) (fuel : ℕ) : Except Fault Scan :=
  if !mpconfig conf then .error (.panic "Expect to run on an SMP")
  else do
    let s ← scanLoop conf (length conf) fuel ⟨headerSize,true,[],0⟩
    if !s.ismp then .error (.panic "Didn't find a suitable machine") else return s

def entrySize (type : Byte) : ℕ := if type = 0 then 20 else 8

/-- The bytes from `p` up to `e` are entries of known types. The last entry may go beyond `e`. -/
inductive Known (conf : ℕ → Byte) (e : ℕ) : ℕ → Prop
  | done {p : ℕ} : e ≤ p → Known conf e p
  | entry {p : ℕ} : p < e → conf p ≤ 4 → Known conf e (p+entrySize (conf p)) → Known conf e p

def processorIds (conf : ℕ → Byte) (e p : ℕ) : List Byte :=
  if p < e then
    if conf p = 0 then conf (p+1) :: processorIds conf e (p+20) else processorIds conf e (p+8)
  else []
termination_by e-p

/-- The scan ends with the ids of the first processors, or reports an unsuitable machine. -/
def Ends (conf : ℕ → Byte) : Prop :=
  ∃ fuel, (∃ s, mpinit conf fuel = .ok s ∧
      s.apicids = (processorIds conf (length conf) headerSize).take maxCpus) ∨
    mpinit conf fuel = .error (.panic "Didn't find a suitable machine")

section
variable {conf : ℕ → Byte} {e fuel p : ℕ} {s s' : Scan}

theorem processorIds_entry (hp : p < e) : processorIds conf e p =
    (if conf p = 0 then [conf (p+1)] else []) ++ processorIds conf e (p+entrySize (conf p)) := by
  rw [processorIds,if_pos hp,entrySize]
  split <;> rfl

theorem known_type : ∀ {b : Byte}, b ≤ 4 → b ≠ 0 → b ≠ 2 → b = 1 ∨ b = 3 ∨ b = 4 := by decide

theorem not_known_type : ∀ {b : Byte}, ¬ b ≤ 4 → b ≠ 0 ∧ b ≠ 2 ∧ ¬ (b = 1 ∨ b = 3 ∨ b = 4) := by decide

theorem scanEntry_known (hk : conf s.p ≤ 4) :
    (scanEntry conf s).p = s.p+entrySize (conf s.p) ∧ (scanEntry conf s).ismp = s.ismp ∧
      (scanEntry conf s).apicids =
        if conf s.p = 0 ∧ s.apicids.length < maxCpus then s.apicids ++ [conf (s.p+1)] else s.apicids := by
  rw [scanEntry,entrySize]
  by_cases h0 : conf s.p = 0
  · simp [h0]
  · have hn : ¬ (conf s.p = 0 ∧ s.apicids.length < maxCpus) := fun h => h0 h.1
    rw [if_neg h0,if_neg h0,if_neg hn]
    by_cases h2 : conf s.p = 2
    · rw [if_pos h2]
      exact ⟨rfl,rfl,rfl⟩
    · rw [if_neg h2,if_pos (known_type hk h0 h2)]
      exact ⟨rfl,rfl,rfl⟩

theorem scanLoop_unknown (hp : s.p < e) (hk : ¬ conf s.p ≤ 4) (fuel : ℕ) :
    scanLoop conf e fuel s = .error .diverges := by
  obtain ⟨h0,h2,h8⟩ := not_known_type hk
  induction fuel generalizing s with
  | zero => rfl
  | succ fuel ih =>
    rw [scanLoop,if_pos hp,scanEntry,if_neg h0,if_neg h2,if_neg h8]
    exact ih hp hk h0 h2 h8

theorem known_of_scanLoop (h : scanLoop conf e fuel s = .ok s') : Known conf e s.p := by
  induction fuel generalizing s with
  | zero => cases h
  | succ fuel ih =>
    by_cases hp : s.p < e
    · by_cases hk : conf s.p ≤ 4
      · rw [scanLoop,if_pos hp] at h
        have hrest := ih h
        rw [(scanEntry_known hk).1] at hrest
        exact .entry hp hk hrest
      · cases (scanLoop_unknown hp hk (fuel+1)).symm.trans h
    · exact .done (not_lt.mp hp)

theorem scanLoop_error {f : Fault} (h : scanLoop conf e fuel s = .error f) : f = .diverges := by
  induction fuel generalizing s with
  | zero =>
    cases h
    rfl
  | succ fuel ih =>
    rw [scanLoop] at h
    split_ifs at h
    exact ih h

theorem scanLoop_of_known (h : Known conf e p) (hs : s.p = p) : ∃ fuel s',
    scanLoop conf e fuel s = .ok s' ∧ s'.ismp = s.ismp ∧
      s'.apicids = s.apicids ++ (processorIds conf e p).take (maxCpus-s.apicids.length) := by
  induction h generalizing s with
  | @done p hp =>
    refine ⟨1,s,?_,rfl,?_⟩
    · rw [scanLoop,if_neg (by omega)]
    · rw [processorIds,if_neg (not_lt.mpr hp),List.take_nil,List.append_nil]
  | @entry p hp hk _ ih =>
    subst hs
    obtain ⟨hnext,hismp,hrecord⟩ := scanEntry_known hk
    obtain ⟨fuel,s',hrun,hm,hids⟩ := ih hnext
    refine ⟨fuel+1,s',?_,hm.trans hismp,?_⟩
    · rw [scanLoop,if_pos hp,hrun]
    · rw [hids,hrecord,processorIds_entry hp]
      by_cases h0 : conf s.p = 0
      · by_cases hroom : s.apicids.length < maxCpus
        · obtain ⟨n,hn⟩ : ∃ n, maxCpus-s.apicids.length = n+1 := ⟨maxCpus-s.apicids.length-1,by omega⟩
          have hn' : maxCpus-(s.apicids ++ [conf (s.p+1)]).length = n := by
            rw [List.length_append,List.length_singleton]
            omega
          rw [if_pos h0,if_pos ⟨h0,hroom⟩,hn',hn,List.singleton_append,List.take_succ_cons,List.append_assoc,
            List.singleton_append]
        · have hn : maxCpus-s.apicids.length = 0 := by omega
          have hfull : ¬ (conf s.p = 0 ∧ s.apicids.length < maxCpus) := fun h => hroom h.2
          rw [if_neg hfull,hn,List.take_zero,List.take_zero]
      · have hother : ¬ (conf s.p = 0 ∧ s.apicids.length < maxCpus) := fun h => h0 h.1
        rw [if_neg hother,if_neg h0,List.nil_append]

end

/-- For a table that `mpconfig` accepts, the scan ends exactly if the table consists of entries of the
known types. -/
theorem mpinit_ends_iff {conf : ℕ → Byte} (h : mpconfig conf = true) :
    Ends conf ↔ Known conf (length conf) headerSize := by
  constructor
  · rintro ⟨fuel,hend⟩
    cases hrun : scanLoop conf (length conf) fuel ⟨headerSize,true,[],0⟩ with
    | error f =>
      rw [mpinit,h,hrun,scanLoop_error hrun] at hend
      rcases hend with ⟨s,hs,-⟩ | hbad
      · cases hs
      · cases hbad
    | ok s => exact known_of_scanLoop hrun
  · intro hk
    obtain ⟨fuel,s,hrun,hm,hap⟩ := scanLoop_of_known (s := ⟨headerSize,true,[],0⟩) hk rfl
    refine ⟨fuel,Or.inl ⟨s,?_,hap⟩⟩
    rw [mpinit,h,hrun]
    change (if (!s.ismp) = true then _ else _) = _
    rw [hm]
    rfl

def knownTable (i : ℕ) : Byte :=
  if i = 0 then 0x50 else if i = 1 then 0x43 else if i = 2 then 0x4D else if i = 3 then 0x50
  else if i = 4 then 72 else if i = 6 then 1 else if i = 7 then 0x84
  else if i = 45 then 1 else if i = 64 then 2 else 0

theorem mpinit_ends_knownTable : mpconfig knownTable = true ∧ Ends knownTable := by
  have haccepted : mpconfig knownTable = true := by decide +kernel
  have hknown : Known knownTable (length knownTable) headerSize :=
    .entry (by decide) (by decide) (.entry (by decide) (by decide) (.done (by decide)))
  exact ⟨haccepted,(mpinit_ends_iff haccepted).mpr hknown⟩

def unknownTable (i : ℕ) : Byte :=
  if i = 0 then 0x50 else if i = 1 then 0x43 else if i = 2 then 0x4D else if i = 3 then 0x50
  else if i = 4 then 52 else if i = 6 then 1 else if i = 7 then 0x96
  else if i = 44 then 5 else 0

/-- The table is accepted, and the scan of it does not end. -/
theorem mpinit_diverges_unknownTable : mpconfig unknownTable = true ∧
    ∀ fuel, mpinit unknownTable fuel = .error .diverges := by
  have haccepted : mpconfig unknownTable = true := by decide +kernel
  refine ⟨haccepted,fun fuel => ?_⟩
  rw [mpinit,haccepted,scanLoop_unknown (by decide) (by decide)]
  rfl

end Xv6Paging.Mp
