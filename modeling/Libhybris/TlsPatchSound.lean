import Libhybris.TlsThunk

/-!
# Every patched read of a segment

The loop over a segment installs, for each word that reads the thread pointer, a branch and a
thunk of its own, and disturbs none that it installed before.
-/
namespace TlsPatcher

open ByteMemory AArch64 Option

/-! ## The words that are patched -/

variable {w : UInt32}

/-- The recognized words are the reads of the thread pointer, for a register other than `xzr`. -/
theorem isTlsMrs_toNat (h : isTlsMrs w = true) :
    w.toNat / 2 ^ 5 = 0x6A9DE82 ∧ (w &&& 31).toNat = w.toNat % 2 ^ 5 ∧ w.toNat % 2 ^ 5 < 31 := by
  simp only [isTlsMrs, Bool.and_eq_true, beq_iff_eq, bne_iff_ne, ne_eq, ← UInt32.toNat_inj,
    UInt32.toNat_and] at h ⊢
  have hlow : w.toNat &&& UInt32.toNat 31 = w.toNat % 2 ^ 5 :=
    Nat.and_two_pow_sub_one_eq_mod w.toNat 5
  have hhigh : (w.toNat &&& UInt32.toNat 0xffffffe0) / 2 ^ 5 = w.toNat / 2 ^ 5 := by
    have hlt := w.toNat_lt
    have hshift : w.toNat >>> 5 < 2 ^ 27 := by
      omega
    rw [← Nat.shiftRight_eq_div_pow, Nat.shiftRight_and_distrib, ← Nat.shiftRight_eq_div_pow]
    change w.toNat >>> 5 &&& (2 ^ 27 - 1) = _
    rw [Nat.and_two_pow_sub_one_eq_mod, Nat.mod_eq_of_lt hshift]
  obtain ⟨htop, hne⟩ := h
  rw [hlow] at hne ⊢
  rw [htop] at hhigh
  have h31 : UInt32.toNat 31 = 31 := rfl
  exact ⟨hhigh.symm, rfl, by omega⟩

theorem decode_of_isTlsMrs (h : isTlsMrs w = true) {t : Fin 31} (ht : t.val = (w &&& 31).toNat) :
    decode w = some (.mrsTpidr t.castSucc) := by
  obtain ⟨htop, hlow, -⟩ := isTlsMrs_toNat h
  exact decode_mrs (by omega) (by omega)

/-! ## One installed read -/

/-- The word at `location` branches to a thunk for the register. -/
structure Installed (callee : Callee) (offset : Nat) (t : Fin 31) (location thunk : UInt64)
    (m : Memory) : Prop where
  branch : ∃ d, branchOffset location thunk = some d ∧ readWord m location.toNat = branchWord d
  code : ∃ ret, branchOffset (thunk + 72) (location + 4) = some ret ∧
    Loaded callee offset t thunk ret m
  inside : thunk.toNat + 96 ≤ 2 ^ 64
  offsetLe : offset ≤ 0xffffff

variable {callee : Callee} {offset : Nat} {t : Fin 31} {location thunk : UInt64} {m m' : Memory}

theorem Installed.congr (h : Installed callee offset t location thunk m)
    (hword : ∀ a, location.toNat ≤ a → a < location.toNat + 4 → m' a = m a)
    (hcode : ∀ a, thunk.toNat ≤ a → a < thunk.toNat + 96 → m' a = m a) :
    Installed callee offset t location thunk m' where
  branch := by
    obtain ⟨d, hd, hread⟩ := h.branch
    exact ⟨d, hd, (readWord_congr hword).trans hread⟩
  code := by
    obtain ⟨ret, hret, hloaded⟩ := h.code
    exact ⟨ret, hret, hloaded.congr hcode⟩
  inside := h.inside
  offsetLe := h.offsetLe

/-- The helper starts neither in the thunk nor at the patched word. -/
structure Elsewhere (callee : Callee) (location thunk : UInt64) : Prop where
  word : callee.entry ≠ location
  code : ∀ i < 24, callee.entry ≠ wordAt thunk i

theorem Installed.run {s : Cpu} (h : Installed callee offset t location thunk s.mem)
    (helsewhere : Elsewhere callee location thunk) (hcallee : Preserving callee thunk)
    (husable : Usable s thunk offset) (hpc : s.pc = location) :
    ∃ calls s', Runs callee s calls s' ∧
      ReadsThreadPointer callee offset t location s calls s' := by
  obtain ⟨d, hd, hread⟩ := h.branch
  obtain ⟨ret, hret, hloaded⟩ := h.code
  have hready : Ready callee offset location thunk ret :=
    ⟨h.inside, h.offsetLe, hret, helsewhere.code⟩
  obtain ⟨hdecode, htarget⟩ := branchOffset_spec hd
  obtain ⟨calls, s', hruns, hreads⟩ := hready.test hcallee husable hloaded
  have hfetch : decode (readWord s.mem s.pc.toNat) = some (.b (4 * d)) := by
    rw [hpc, hread]
    exact hdecode
  have hjump : exec s (.b (4 * d)) = some { s with pc := thunk } := by
    simp only [exec, Cpu.jump, hpc, htarget]
  exact ⟨calls, s', .inst (hpc ▸ helsewhere.word.symm) hfetch hjump
    (hready.push husable hloaded hruns), hreads⟩

/-! ## The loop -/

theorem allocateThunkNear_spec {region region' : ThunkRegion} {target thunk : UInt64}
    (h : allocateThunkNear region target thunkSize = some (region', thunk)) :
    thunk.toNat = region.start.toNat + region.used ∧ region'.start = region.start ∧
      region'.size = region.size ∧ region'.used = region.used + 96 ∧
      region.used + 96 ≤ region.size := by
  simp only [allocateThunkNear, ite_none_left_eq_some, not_or, not_lt, Option.some.injEq,
    Prod.mk.injEq] at h
  obtain ⟨⟨-, hroom⟩, -, rfl, rfl⟩ := h
  have hinside := region.inside
  have hsize : (thunkSize + 15) / 16 * 16 = 96 := rfl
  refine ⟨?_, rfl, rfl, rfl, hroom⟩
  rw [UInt64.toNat_add, UInt64.toNat_ofNat']
  omega

theorem generateTlsThunk_spec {tlsOffset : Int32} {target : UInt32}
    (h : generateTlsThunk callee.entry tlsOffset target location thunk m = some m')
    (ht : UInt32.ofNat t = target) :
    (tlsOffset.toInt * 8).toNat ≤ 0xffffff ∧
      (∃ ret, branchOffset (thunk + 72) (location + 4) = some ret ∧
        Loaded callee (tlsOffset.toInt * 8).toNat t thunk ret m') ∧
      ∀ a, a < thunk.toNat ∨ thunk.toNat + 96 ≤ a → m' a = m a := by
  simp only [generateTlsThunk, ite_none_left_eq_some, not_or, not_lt,
    map_eq_some_iff] at h
  obtain ⟨⟨-, hle⟩, ret, hret, rfl⟩ := h
  subst ht
  refine ⟨by omega, ⟨ret, hret, fun i w hw => readWord_writeWords m hw⟩, fun a ha => ?_⟩
  exact writeWords_outside m _ ha

theorem patchMrsWithBranch_spec (h : patchMrsWithBranch location thunk m = some m') :
    (∃ d, branchOffset location thunk = some d ∧ readWord m' location.toNat = branchWord d) ∧
      ∀ a, a < location.toNat ∨ location.toNat + 4 ≤ a → m' a = m a := by
  simp only [patchMrsWithBranch, map_eq_some_iff] at h
  obtain ⟨d, hd, rfl⟩ := h
  exact ⟨⟨d, hd, readWord_writeWords m (i := 0) rfl⟩, fun a ha => writeWords_outside m _ ha⟩

/-- The region lies apart from the segment, as the linker places it. -/
def Apart (region : ThunkRegion) (segment : Segment) : Prop :=
  region.start.toNat + region.size ≤ segment.addr.toNat ∨
    segment.addr.toNat + segment.size ≤ region.start.toNat

instance (region : ThunkRegion) (segment : Segment) : Decidable (Apart region segment) :=
  inferInstanceAs (Decidable (_ ∨ _))

theorem location_toNat (segment : Segment) {i : Nat} (hi : i < segment.count) :
    (segment.location i).toNat = segment.addr.toNat + 4 * i := by
  have hinside := segment.inside
  unfold Segment.count at hi
  unfold Segment.location
  rw [UInt64.toNat_add, UInt64.toNat_ofNat']
  omega

/-- What the loop from word `i` to word `stop` has done: where memory may differ, and that each
read among these words is installed in the part of the region it used. -/
structure Patched (callee : Callee) (tlsOffset : Int32) (segment : Segment) (i stop : Nat)
    (region region' : ThunkRegion) (m m' : Memory) : Prop where
  start : region'.start = region.start
  size : region'.size = region.size
  used : region.used ≤ region'.used
  room : region.used ≤ region.size → region'.used ≤ region.size
  same : ∀ a, a < segment.addr.toNat + 4 * i ∨ segment.addr.toNat + 4 * stop ≤ a →
    a < region.start.toNat + region.used ∨ region.start.toNat + region'.used ≤ a → m' a = m a
  installed : ∀ j, i ≤ j → j < stop → isTlsMrs (segment.text m j) = true → ∀ t : Fin 31,
    t.val = (segment.text m j &&& 31).toNat → ∃ thunk : UInt64,
      region.start.toNat + region.used ≤ thunk.toNat ∧
      thunk.toNat + 96 ≤ region.start.toNat + region'.used ∧
      Installed callee (tlsOffset.toInt * 8).toNat t (segment.location j) thunk m'

theorem ofNat_target {t : Fin 31} (ht : t.val = w.toNat) : UInt32.ofNat t = w := by
  rw [ht, UInt32.ofNat_toNat]

theorem text_congr {segment : Segment} {j : Nat}
    (h : ∀ a, segment.addr.toNat + 4 * j ≤ a → a < segment.addr.toNat + 4 * j + 4 → m' a = m a) :
    segment.text m' j = segment.text m j := readWord_congr h

theorem patchFrom_patched {tlsOffset : Int32} {segment : Segment} {i left : Nat}
    {region region' : ThunkRegion} (hapart : Apart region segment) (hcount : i + left ≤ segment.count)
    (h : patchFrom callee.entry tlsOffset segment i left region m = some (region', m')) :
    Patched callee tlsOffset segment i (i + left) region region' m m' := by
  induction left generalizing i region m with
  | zero =>
    cases h
    exact ⟨rfl, rfl, le_rfl, id, fun _ _ _ => rfl, fun j hij hj => by omega⟩
  | succ left ih =>
    simp only [patchFrom] at h
    split at h
    case isFalse hnot =>
      have hrest := ih hapart (by omega) h
      refine ⟨hrest.start, hrest.size, hrest.used, hrest.room,
        fun a ha hb => hrest.same a (by omega) hb, fun j hij hj hmrs => ?_⟩
      have hne : j ≠ i := by
        rintro rfl
        exact hnot hmrs
      exact hrest.installed j (by omega) (by omega) hmrs
    case isTrue hfound =>
    split at h
    case h_1 => cases h
    case h_2 region₁ thunk halloc =>
    split at h
    case h_1 => cases h
    case h_2 m₁ hgenerate =>
    split at h
    case h_1 => cases h
    case h_2 m₂ hpatch =>
    obtain ⟨hthunk, hstart₁, hsize₁, hused₁, hroom⟩ := allocateThunkNear_spec halloc
    obtain ⟨hbranch, hsame₂⟩ := patchMrsWithBranch_spec hpatch
    have hloc := location_toNat segment (show i < segment.count by omega)
    have hregion := region.inside
    have hsegment : 4 * segment.count ≤ segment.size := by
      unfold Segment.count
      omega
    have hapart₁ : Apart region₁ segment := by
      unfold Apart
      rw [hstart₁, hsize₁]
      exact hapart
    have hrest := ih hapart₁ (by omega) h
    have hused := hrest.used
    have hroom' := hrest.room (by omega)
    have hstart' := hrest.start
    unfold Apart at hapart
    obtain ⟨-, hlow, hlt⟩ := isTlsMrs_toNat hfound
    obtain ⟨t₀, ht₀⟩ : ∃ t₀ : Fin 31, t₀.val = (segment.text m i &&& 31).toNat :=
      ⟨⟨_, hlow.trans_lt hlt⟩, rfl⟩
    obtain ⟨hoffset, hcode, hsame₁⟩ := generateTlsThunk_spec hgenerate (ofNat_target ht₀)
    have hinstalled : Installed callee (tlsOffset.toInt * 8).toNat t₀ (segment.location i) thunk m₂ := by
      obtain ⟨ret, hret, hloaded⟩ := hcode
      refine ⟨hbranch, ⟨ret, hret, hloaded.congr fun a ha hb => hsame₂ a ?_⟩, by omega, hoffset⟩
      change a < thunk.toNat + 96 at hb
      omega
    refine ⟨hstart'.trans hstart₁, hrest.size.trans hsize₁, by omega, fun _ => by omega,
      fun a ha hb => ?_, fun j hij hj hmrs t ht => ?_⟩
    · rw [hrest.same a (by omega) (by rw [hstart₁]; omega), hsame₂ a (by omega), hsame₁ a (by omega)]
    · by_cases hji : j = i
      · -- The read just installed: the rest of the loop does not touch it.
        subst hji
        obtain rfl : t = t₀ := Fin.ext (ht.trans ht₀.symm)
        refine ⟨thunk, by omega, by omega, hinstalled.congr (fun a ha hb => ?_) (fun a ha hb => ?_)⟩
        · exact hrest.same a (by omega) (by rw [hstart₁]; omega)
        · exact hrest.same a (by omega) (by rw [hstart₁]; omega)
      · have htext : segment.text m₂ j = segment.text m j := text_congr fun a ha hb => by
          rw [hsame₂ a (by omega), hsame₁ a (by omega)]
        obtain ⟨thunk', hlow', hhigh', hinst⟩ :=
          hrest.installed j (by omega) (by omega) (htext ▸ hmrs) t (htext ▸ ht)
        rw [hstart₁] at hlow' hhigh'
        exact ⟨thunk', by omega, by omega, hinst⟩

/-- Every read of the thread pointer in a patched segment reads the simulated one instead, as
long as the thunk and the patched word are in memory as they were written. -/
theorem patched_read_reads_thread_pointer (callee : Callee) (segment : Segment) (tlsOffset : Int32)
    (region region' : ThunkRegion) (m m' : Memory) (hapart : Apart region segment)
    (hpatch : patchTlsArch callee.entry segment tlsOffset region m = some (region', m'))
    (i : Nat) (hi : i < segment.count) (hmrs : isTlsMrs (segment.text m i) = true) (t : Fin 31)
    (ht : t.val = (segment.text m i &&& 31).toNat) :
    decode (segment.text m i) = some (.mrsTpidr t.castSucc) ∧
    ∃ thunk : UInt64, region.start.toNat + region.used ≤ thunk.toNat ∧
      thunk.toNat + 96 ≤ region.start.toNat + region'.used ∧
      ∀ s : Cpu, s.pc = segment.location i →
      (∀ a, (segment.location i).toNat ≤ a → a < (segment.location i).toNat + 4 → s.mem a = m' a) →
      (∀ a, thunk.toNat ≤ a → a < thunk.toNat + 96 → s.mem a = m' a) →
      Usable s thunk (tlsOffset.toInt * 8).toNat → Preserving callee thunk →
      Elsewhere callee (segment.location i) thunk →
      ∃ calls s', Runs callee s calls s' ∧
        ReadsThreadPointer callee (tlsOffset.toInt * 8).toNat t (segment.location i) s calls s' := by
  refine ⟨decode_of_isTlsMrs hmrs ht, ?_⟩
  have hpatched := patchFrom_patched hapart (by omega) hpatch
  obtain ⟨thunk, hlow, hhigh, hinstalled⟩ :=
    hpatched.installed i (Nat.zero_le i) (by omega) hmrs t ht
  exact ⟨thunk, hlow, hhigh, fun s hpc hword hcode husable hcallee helsewhere =>
    (hinstalled.congr hword hcode).run helsewhere hcallee husable hpc⟩

/-- A segment of one word, `mrs x3, tpidr_el0`. -/
def sampleSegment : Segment := ⟨0x1000, 4, by decide⟩

def sampleMemory : Memory := writeWords (fun _ => 0) 0x1000 [0xd53bd043]

def sampleRegion : ThunkRegion := registerThunkRegion 0x2000 96 (by decide)

/-- A helper that does nothing but return. -/
def sampleCallee : Callee := ⟨0x9000, fun c => { c with pc := c.x (Fin.last 30) }⟩

def sampleCpu (m : Memory) : Cpu := ⟨fun _ => 7, 0x4000, 0x1000, ⟨true, false, true, false⟩, 0x5000, m⟩

theorem patched_read_reads_thread_pointer_sample : ∃ m thunk calls s',
    Usable (sampleCpu m) thunk 16 ∧ Runs sampleCallee (sampleCpu m) calls s' ∧
      ReadsThreadPointer sampleCallee 16 3 0x1000 (sampleCpu m) calls s' := by
  obtain ⟨⟨region', m'⟩, hpatch⟩ := isSome_iff_exists.mp
    (by decide +kernel :
      (patchTlsArch sampleCallee.entry sampleSegment 2 sampleRegion sampleMemory).isSome = true)
  have hused : region'.used = 96 := by
    have hmap : (patchTlsArch sampleCallee.entry sampleSegment 2 sampleRegion sampleMemory).map
        (fun p => p.1.used) = some 96 := by decide +kernel
    rw [hpatch] at hmap
    exact Option.some.inj hmap
  obtain ⟨-, thunk, hlow, hhigh, hreads⟩ := patched_read_reads_thread_pointer sampleCallee
    sampleSegment 2 sampleRegion region' sampleMemory m' (by decide) hpatch 0 (by decide)
    (by decide +kernel) 3 (by decide +kernel)
  have hthunk : thunk.toNat = 0x2000 := by
    have hstart' : sampleRegion.start.toNat = 0x2000 := rfl
    omega
  have hslot : ∀ a, 0x5010 ≤ a → a < 0x5010 + 8 → m' a = 0 := by
    intro a ha hb
    have hpatched := patchFrom_patched (show Apart sampleRegion sampleSegment by decide)
      (show 0 + 1 ≤ sampleSegment.count by decide) hpatch
    have hend : sampleSegment.addr.toNat + 4 * (0 + 1) = 0x1004 := rfl
    rw [hpatched.same a (by omega) (by omega)]
    exact writeWords_outside (fun _ => 0) [0xd53bd043] (by simp; omega)
  have harena : arenaOf (sampleCpu m') 16 = 0 := by
    change readDword m' 0x5010 = 0
    rw [readDword_congr (n := fun _ => 0) hslot]
    rfl
  have husable : Usable (sampleCpu m') thunk 16 :=
    ⟨(by decide : (0x4000 : UInt64).toNat % 16 = 0), (by decide : 32 ≤ (0x4000 : UInt64).toNat),
      .inr (by rw [hthunk]; exact (by decide : 0x2000 + 96 + 32 ≤ (0x4000 : UInt64).toNat)),
      .inl (by decide : (0x4000 : UInt64).toNat ≤ ((0x5000 : UInt64) + UInt64.ofNat 16).toNat),
      by rw [harena]; exact .inr (by decide : ((0 : UInt64) + 8).toNat + 8 + 32 ≤
        (0x4000 : UInt64).toNat)⟩
  obtain ⟨calls, s', hruns, hread⟩ := hreads (sampleCpu m') rfl (fun _ _ _ => rfl)
    (fun _ _ _ => rfl) husable
    ⟨fun _ _ => rfl, fun _ _ => rfl, fun _ _ => rfl, fun _ _ => rfl, fun _ _ _ _ _ _ => rfl,
      fun _ _ _ _ _ => rfl, fun _ _ _ _ _ => rfl⟩
    ⟨by decide, fun i hi heq => by
      have hentry := congrArg UInt64.toNat heq
      rw [wordAt_toNat (by omega)] at hentry
      change 0x9000 = _ at hentry
      omega⟩
  exact ⟨m', thunk, calls, s', husable, hruns, hread⟩

end TlsPatcher
