import Libhybris.LinkerIntegrity
import Libhybris.Vulkan

/-!
# No modified module is signed again

`hybris_relocate_module_integrity` writes a new hash only over one that the image without the
TLS relocations verifies, and the one it writes is the hash of the image with them. The heart
is the loop of `hash_range`: it feeds the hash the bytes of an image that has each patch's word
in the patch's place and the bytes of memory everywhere else.
-/
namespace LinkerIntegrity

open ByteMemory List Option Vulkan

/-! ## Ranges as intervals of numbers -/

def Range.lo (r : Range) : Nat := r.begin.toNat

def Range.hi (r : Range) : Nat := r.begin.toNat + r.size.toNat

/-- The two ranges have no address in common. -/
def Apart (a b : Range) : Prop := a.hi ≤ b.lo ∨ b.hi ≤ a.lo

variable {a b text rodata : Range} {si : Soinfo} {journal patches : List Patch} {m image : Memory}
  {original : Bool} {sha256 : List UInt8 → Digest} {env : Env} {expected : UInt64}

theorem Apart.symm (h : Apart a b) : Apart b a := Or.symm h

theorem toNat_add_of_lt {a b : UInt64} (h : a.toNat + b.toNat < 2 ^ 64) :
    (a + b).toNat = a.toNat + b.toNat := by
  exact Nat.mod_eq_of_lt h

theorem toNat_sub_of_le {a b : UInt64} (h : b.toNat ≤ a.toNat) :
    (a - b).toNat = a.toNat - b.toNat :=
  UInt64.toNat_sub_of_le a b (UInt64.le_iff_toNat_le.mpr h)

/-- The overflow tests of the source. -/
theorem not_uintptrMax_sub_lt {a b : UInt64} (h : ¬ uintptrMax - a < b) :
    a.toNat + b.toNat < 2 ^ 64 := by
  have ha := a.toNat_lt
  have hmax : (uintptrMax - a).toNat = 2 ^ 64 - 1 - a.toNat := by
    rw [toNat_sub_of_le]
    · rfl
    · change a.toNat ≤ 2 ^ 64 - 1
      omega
  rw [UInt64.lt_iff_toNat_lt] at h
  omega

theorem overlaps_iff (ha : a.hi < 2 ^ 64) (hb : b.hi < 2 ^ 64) :
    overlaps a b = true ↔ a.lo < b.hi ∧ b.lo < a.hi := by
  have ha' : (a.begin + a.size).toNat = a.hi := toNat_add_of_lt ha
  have hb' : (b.begin + b.size).toNat = b.hi := toNat_add_of_lt hb
  simp [overlaps, UInt64.lt_iff_toNat_lt, ha', hb', Range.lo]

theorem apart_of_not_overlaps (ha : a.hi < 2 ^ 64) (hb : b.hi < 2 ^ 64) (h : overlaps a b = false) :
    Apart a b := by
  have hn : ¬ (a.lo < b.hi ∧ b.lo < a.hi) := by
    rw [← overlaps_iff ha hb, h]
    simp
  unfold Apart
  omega

/-- The file-backed part of a segment holds the range. -/
def InFile (si : Soinfo) (ph : Phdr) (r : Range) : Prop :=
  si.loadBias.toNat + ph.vaddr.toNat ≤ r.lo ∧
    r.hi ≤ si.loadBias.toNat + ph.vaddr.toNat + ph.filesz.toNat

theorem mapsRange_spec {r : Range} {required forbidden : UInt32} {ph : Phdr}
    (h : mapsRange si r required forbidden ph = true) :
    ph.type = ptLoad ∧ ph.flags &&& required = required ∧ ph.flags &&& forbidden = 0 ∧ InFile si ph r := by
  unfold mapsRange at h
  split at h
  case isTrue => cases h
  case isFalse hph =>
    simp only [not_or, ne_eq, Decidable.not_not] at hph
    obtain ⟨htype, hreq, hforb, hbias⟩ := hph
    have hbegin := toNat_add_of_lt (not_uintptrMax_sub_lt hbias)
    simp only [Bool.and_eq_true, decide_eq_true_eq, UInt64.le_iff_toNat_le] at h
    obtain ⟨⟨hlo, hfile⟩, hsize⟩ := h
    rw [toNat_sub_of_le hlo, hbegin] at hfile
    rw [hbegin] at hlo
    rw [toNat_sub_of_le, toNat_sub_of_le] at hsize
    · refine ⟨htype, hreq, hforb, ?_, ?_⟩
      · exact hlo
      · unfold Range.hi
        omega
    · rwa [hbegin]
    · rw [toNat_sub_of_le (by rwa [hbegin]), hbegin]
      exact hfile

theorem mappedRange_spec {r : Range} {required forbidden : UInt32}
    (h : mappedRange si r required forbidden = true) :
    r.lo < r.hi ∧ r.hi < 2 ^ 64 ∧ ∃ ph ∈ si.phdr, ph.type = ptLoad ∧
      ph.flags &&& required = required ∧ ph.flags &&& forbidden = 0 ∧ InFile si ph r := by
  unfold mappedRange at h
  split at h
  case isTrue => cases h
  case isFalse hr =>
    simp only [not_or] at hr
    obtain ⟨hsize, hwrap⟩ := hr
    obtain ⟨ph, hmem, hph⟩ := any_eq_true.mp h
    have hpos : r.size.toNat ≠ 0 := fun hz => hsize (UInt64.toNat_inj.mp hz)
    have hlt := not_uintptrMax_sub_lt hwrap
    refine ⟨?_, ?_, ph, hmem, mapsRange_spec hph⟩ <;> unfold Range.hi
    · unfold Range.lo
      omega
    · omega

/-! ## The journal -/

def Patch.lo (p : Patch) : Nat := p.address.toNat

theorem range_lo (p : Patch) : p.range.lo = p.lo := rfl

theorem range_hi (p : Patch) : p.range.hi = p.lo + 4 := rfl

/-- No patch of the list has the address. -/
def Untouched (patches : List Patch) (x : Nat) : Prop :=
  ∀ p ∈ patches, x < p.lo ∨ p.lo + 4 ≤ x

/-- Memory with every patch of the journal taken back. -/
def undo (m : Memory) (journal : List Patch) : Memory :=
  journal.foldl (fun m p => write m p.lo (wordBytes p.original)) m

@[simp] theorem undo_cons (m : Memory) (p : Patch) (rest : List Patch) :
    undo m (p :: rest) = undo (write m p.lo (wordBytes p.original)) rest := rfl

def PatchesApart (p q : Patch) : Prop := Apart p.range q.range

theorem undo_untouched (m : Memory) (journal : List Patch) {x : Nat} (h : Untouched journal x) :
    undo m journal x = m x := by
  induction journal generalizing m with
  | nil => rfl
  | cons p rest ih =>
    rw [undo_cons, ih _ (fun q hq => h q (mem_cons_of_mem p hq))]
    refine write_outside m _ ?_
    exact h p mem_cons_self

theorem undo_patch (m : Memory) (hapart : journal.Pairwise PatchesApart) {p : Patch}
    (hp : p ∈ journal) : read (undo m journal) p.lo 4 = wordBytes p.original := by
  induction journal generalizing m with
  | nil => cases hp
  | cons q rest ih =>
    obtain ⟨hq, hrest⟩ := pairwise_cons.mp hapart
    rw [undo_cons]
    rcases mem_cons.mp hp with rfl | hp
    · -- the later patches are elsewhere
      have hlast : read (undo (write m p.lo (wordBytes p.original)) rest) p.lo 4 =
          read (write m p.lo (wordBytes p.original)) p.lo 4 := by
        refine read_congr (fun x hlo hhi => undo_untouched _ _ (fun r hr => ?_))
        have hpr : p.range.hi ≤ r.range.lo ∨ r.range.hi ≤ p.range.lo := hq r hr
        rw [range_hi, range_lo, range_hi, range_lo] at hpr
        omega
      rw [hlast]
      exact read_write_self m p.lo (wordBytes p.original)
    · exact ih _ hrest hp

theorem checkJournal_spec {previousEnd : UInt64} (h : checkJournal si m patches previousEnd = .ok ()) :
    (∀ p ∈ patches, p.lo + 4 < 2 ^ 64 ∧ previousEnd.toNat ≤ p.lo ∧
      read m p.lo 4 = wordBytes p.replacement) ∧
    patches.Pairwise (fun p q => p.lo + 4 ≤ q.lo) := by
  induction patches generalizing previousEnd with
  | nil => exact ⟨fun p hp => (by cases hp), List.Pairwise.nil⟩
  | cons p rest ih =>
    obtain ⟨hvalid, h⟩ := ite_error_eq_ok.mp h
    obtain ⟨hword, h⟩ := ite_error_eq_ok.mp h
    simp only [not_or, Bool.not_eq_false] at hvalid
    obtain ⟨hmapped, horder, -, -⟩ := hvalid
    obtain ⟨-, hwrap, -⟩ := mappedRange_spec hmapped
    have hend : (p.address + 4).toNat = p.lo + 4 := toNat_add_of_lt hwrap
    have hle : previousEnd.toNat ≤ p.lo := by
      exact Nat.le_of_not_lt horder
    have hread : read m p.lo 4 = wordBytes p.replacement := by
      rw [← wordBytes_readWord, ← Decidable.not_not.mp hword]
      rfl
    obtain ⟨hrest, hpair⟩ := ih h
    rw [hend] at hrest
    refine ⟨fun q hq => ?_, pairwise_cons.mpr ⟨fun q hq => (hrest q hq).2.1, hpair⟩⟩
    rcases mem_cons.mp hq with rfl | hq
    · exact ⟨hwrap, hle, hread⟩
    · obtain ⟨hw, ho, hr⟩ := hrest q hq
      exact ⟨hw, by omega, hr⟩

/-! ## What is hashed -/

/-- `image` is memory with the patches' words, of the original or of the relocated module, in
the patches' places. -/
structure Image (m image : Memory) (patches : List Patch) (original : Bool) : Prop where
  patch : ∀ p ∈ patches, read image p.lo 4 = wordBytes (p.word original)
  rest : ∀ x, Untouched patches x → image x = m x

/-- The loop feeds the image's bytes from the cursor it starts with to the one it ends with,
behind which the image is memory. -/
theorem hashPatches_spec {range : Range} (hrange : range.hi < 2 ^ 64) (patches : List Patch)
    (cursor cursor' : UInt64) (hash hash' : ModuleHmac)
    (hword : ∀ p ∈ patches, read image p.lo 4 = wordBytes (p.word original))
    (hwrap : ∀ p ∈ patches, p.lo + 4 < 2 ^ 64) (hsorted : patches.Pairwise (fun p q => p.lo + 4 ≤ q.lo))
    (hgap : ∀ x, cursor.toNat ≤ x → x < range.hi → Untouched patches x → image x = m x)
    (hlo : range.lo ≤ cursor.toNat) (hhi : cursor.toNat ≤ range.hi)
    (h : hashPatches m range original patches cursor hash = some (cursor', hash')) :
    cursor.toNat ≤ cursor'.toNat ∧ cursor'.toNat ≤ range.hi ∧
      hash'.inner = hash.inner ++ read image cursor.toNat (cursor'.toNat - cursor.toNat) ∧
      ∀ x, cursor'.toNat ≤ x → x < range.hi → image x = m x := by
  induction patches generalizing cursor hash with
  | nil =>
    cases h
    refine ⟨Nat.le_refl _, hhi, by simp, fun x hx hx' => hgap x hx hx' ?_⟩
    intro p hp
    cases hp
  | cons p rest ih =>
    have hpwrap := hwrap p mem_cons_self
    have hword' := fun q hq => hword q (mem_cons_of_mem p hq)
    have hwrap' := fun q hq => hwrap q (mem_cons_of_mem p hq)
    obtain ⟨hafter, hsorted'⟩ := pairwise_cons.mp hsorted
    unfold hashPatches at h
    split at h
    case isTrue hskip =>
      have hapart := apart_of_not_overlaps hrange (by rwa [range_hi]) hskip
      have hout : p.lo + 4 ≤ range.lo ∨ range.hi ≤ p.lo := by
        rw [Apart, range_lo, range_hi] at hapart
        omega
      refine ih cursor hash hword' hwrap' hsorted' (fun x hx hx' hrest => ?_) hlo hhi h
      refine hgap x hx hx' (fun q hq => ?_)
      rcases mem_cons.mp hq with rfl | hq
      · omega
      · exact hrest q hq
    case isFalse htake =>
      have hover : range.lo < p.lo + 4 ∧ p.lo < range.hi :=
        (overlaps_iff (b := p.range) hrange (by rwa [range_hi])).mp (by simpa using htake)
      obtain ⟨hfits, h⟩ := ite_none_left_eq_some.mp h
      simp only [not_or, UInt64.lt_iff_toNat_lt] at hfits
      obtain ⟨hnext, hinside⟩ := hfits
      have hstop : (range.begin + range.size).toNat = range.hi := toNat_add_of_lt hrange
      have hplo : p.address.toNat = p.lo := rfl
      have hfour : (4 : UInt64).toNat = 4 := rfl
      rw [toNat_sub_of_le (by omega)] at hinside
      have hend : (p.address + 4).toNat = p.lo + 4 := toNat_add_of_lt hpwrap
      obtain ⟨h1, h2, h3, h4⟩ := ih (p.address + 4) _ hword' hwrap' hsorted'
        (fun x hx hx' hrest => hgap x (by omega) hx' (fun q hq => by
          rcases mem_cons.mp hq with rfl | hq
          · omega
          · exact hrest q hq))
        (by omega) (by omega) h
      refine ⟨by omega, h2, ?_, h4⟩
      -- up to the patch the image is memory, and later patches are behind it
      have hbefore : read m cursor.toNat (p.lo - cursor.toNat) =
          read image cursor.toNat (p.lo - cursor.toNat) := by
        refine read_congr (fun x hx hx' => (hgap x hx (by omega) (fun q hq => ?_)).symm)
        rcases mem_cons.mp hq with rfl | hq
        · omega
        · have := hafter q hq
          omega
      have hsplit : cursor'.toNat - cursor.toNat =
          (p.lo - cursor.toNat) + (4 + (cursor'.toNat - (p.lo + 4))) := by omega
      have hmeet : cursor.toNat + (p.lo - cursor.toNat) = p.lo := by omega
      rw [h3, hsplit, read_add, read_add, hmeet, ← hbefore, hword p mem_cons_self, hend]
      simp only [ModuleHmac.bytes, append_assoc]
      rw [toNat_sub_of_le (by omega), hplo]

theorem hashRange_spec {hash hash' : ModuleHmac} {range : Range} (himage : Image m image patches original)
    (hrange : range.hi < 2 ^ 64) (hwrap : ∀ p ∈ patches, p.lo + 4 < 2 ^ 64)
    (hsorted : patches.Pairwise (fun p q => p.lo + 4 ≤ q.lo))
    (h : hashRange m hash range patches original = some hash') :
    hash'.inner = hash.inner ++ read image range.lo range.size.toNat := by
  obtain ⟨⟨cursor, last⟩, hloop, rfl⟩ := map_eq_some_iff.mp h
  have hle : range.lo ≤ range.hi := Nat.le_add_right _ _
  obtain ⟨hlo, hhi, hfed, hrest⟩ := hashPatches_spec hrange patches range.begin cursor hash last
    himage.patch hwrap hsorted (fun x _ _ hx => himage.rest x hx) (Nat.le_refl _) hle hloop
  have hstop : (range.begin + range.size).toNat = range.hi := toNat_add_of_lt hrange
  have hlast : read m cursor.toNat (range.hi - cursor.toNat) =
      read image cursor.toNat (range.hi - cursor.toNat) :=
    read_congr (fun x hx hx' => (hrest x hx (by omega)).symm)
  have hbegin : range.begin.toNat = range.lo := rfl
  have hsplit : range.size.toNat = (cursor.toNat - range.lo) + (range.hi - cursor.toNat) := by
    unfold Range.hi at hhi ⊢
    omega
  have hmeet : range.lo + (cursor.toNat - range.lo) = cursor.toNat := by omega
  simp only [ModuleHmac.bytes]
  rw [hfed, toNat_sub_of_le (by omega), hstop, hlast, hsplit, read_add, hbegin, hmeet,
    append_assoc]

/-- The stream BoringSSL hashes for a module: with a rodata range, each range after its
length; without, the text alone. -/
def stream (m : Memory) (text rodata : Range) : List UInt8 :=
  if rodata.size = 0 then read m text.lo text.size.toNat
  else lengthBytes text.size ++ read m text.lo text.size.toNat ++
    (lengthBytes rodata.size ++ read m rodata.lo rodata.size.toNat)

/-- HMAC-SHA256 with the all-zero key. -/
def hmac (sha256 : List UInt8 → Digest) (data : List UInt8) : Digest :=
  sha256 (List.replicate 64 0x5c ++ (sha256 (List.replicate 64 0x36 ++ data)).bytes)

def moduleHmac (sha256 : List UInt8 → Digest) (m : Memory) (text rodata : Range) : Digest :=
  hmac sha256 (stream m text rodata)

theorem hashModule_spec {digest : Digest} (himage : Image m image patches original)
    (htext : text.hi < 2 ^ 64) (hrodata : rodata.hi < 2 ^ 64) (hwrap : ∀ p ∈ patches, p.lo + 4 < 2 ^ 64)
    (hsorted : patches.Pairwise (fun p q => p.lo + 4 ≤ q.lo))
    (h : hashModule sha256 m text rodata patches original = some digest) :
    digest = moduleHmac sha256 image text rodata := by
  unfold hashModule at h
  split at h
  case isTrue hempty =>
    obtain ⟨hash, hhash, rfl⟩ := map_eq_some_iff.mp h
    have hfed := hashRange_spec himage htext hwrap hsorted hhash
    simp [moduleHmac, hmac, stream, hempty, ModuleHmac.finish, hfed, ModuleHmac.new]
  case isFalse hfull =>
    obtain ⟨hash, hhash, rfl⟩ := map_eq_some_iff.mp h
    obtain ⟨first, hfirst, hsecond⟩ := bind_eq_some_iff.mp hhash
    have hfed := hashRange_spec himage htext hwrap hsorted hfirst
    have hfed' := hashRange_spec himage hrodata hwrap hsorted hsecond
    simp [moduleHmac, hmac, stream, hfull, ModuleHmac.finish, hfed', ModuleHmac.length, hfed,
      ModuleHmac.new, ModuleHmac.bytes]

theorem foldl_or_eq_zero (l : List (UInt8 × UInt8)) (d : UInt8) :
    l.foldl (fun difference p => difference ||| (p.1 ^^^ p.2)) d = 0 ↔
      d = 0 ∧ ∀ p ∈ l, p.1 = p.2 := by
  induction l generalizing d with
  | nil => simp
  | cons p rest ih =>
    rw [foldl_cons, ih, UInt8.or_eq_zero_iff]
    simp [and_assoc]

theorem equalHash_iff {a b : List UInt8} (h : a.length = b.length) :
    equalHash a b = true ↔ a = b := by
  unfold equalHash
  rw [decide_eq_true_eq, foldl_or_eq_zero]
  constructor
  · rintro ⟨-, hall⟩
    refine ext_getElem h (fun i hi hi' => ?_)
    refine hall (a[i], b[i]) ?_
    rw [mem_iff_getElem]
    exact ⟨i, by simp [hi, hi'], by simp⟩
  · rintro rfl
    refine ⟨rfl, fun p hp => ?_⟩
    obtain ⟨i, hi, rfl⟩ := mem_iff_getElem.mp hp
    simp

/-! ## The checks before the write -/

/-- An address range between two symbols of the module. -/
def Between (si : Soinfo) (start stop : Sym) (r : Range) : Prop :=
  r.lo = si.loadBias.toNat + start.value.toNat ∧ r.hi = si.loadBias.toNat + stop.value.toNat

/-- The ranges BoringSSL's symbols name: text, and rodata if it has any. -/
structure Protected (si : Soinfo) (text rodata : Range) : Prop where
  text : ∃ start stop, symbol si "BORINGSSL_bcm_text_start" = some start ∧
    symbol si "BORINGSSL_bcm_text_end" = some stop ∧ Between si start stop text
  rodata : (symbol si "BORINGSSL_bcm_rodata_start" = none ∧
      symbol si "BORINGSSL_bcm_rodata_end" = none ∧ rodata.size = 0) ∨
    ∃ start stop, symbol si "BORINGSSL_bcm_rodata_start" = some start ∧
      symbol si "BORINGSSL_bcm_rodata_end" = some stop ∧ Between si start stop rodata

theorem address_toNat {name : String} {sym : Sym} (h : symbol si name = some sym) :
    (address si sym).toNat = si.loadBias.toNat + sym.value.toNat := by
  unfold symbol at h
  split at h
  case h_1 => cases h
  case h_2 =>
    obtain ⟨hvalid, h⟩ := ite_none_left_eq_some.mp h
    cases h
    simp only [not_or] at hvalid
    exact toNat_add_of_lt (not_uintptrMax_sub_lt hvalid.2.2)

/-- The range of two resolved symbols, the second above the first. -/
theorem between_address {name name' : String} {start stop : Sym} (hstart : symbol si name = some start)
    (hstop : symbol si name' = some stop) (h : ¬ address si stop ≤ address si start) :
    Between si start stop ⟨address si start, address si stop - address si start⟩ := by
  rw [UInt64.le_iff_toNat_le] at h
  have hsub := toNat_sub_of_le (a := address si stop) (b := address si start) (by omega)
  unfold Between Range.lo Range.hi
  simp only [hsub]
  rw [address_toNat hstart, address_toNat hstop] at *
  omega

theorem protectedText_spec {start stop : Sym} (hstart : symbol si "BORINGSSL_bcm_text_start" = some start)
    (hstop : symbol si "BORINGSSL_bcm_text_end" = some stop) (h : protectedText si start stop = .ok text) :
    Between si start stop text ∧ text.hi < 2 ^ 64 := by
  obtain ⟨hbounds, h⟩ := ite_error_eq_ok.mp h
  obtain ⟨hmapped, h⟩ := ite_error_eq_ok.mp h
  cases h
  exact ⟨between_address hstart hstop hbounds,
    (mappedRange_spec (by simpa using hmapped)).2.1⟩

theorem protectedRodata_spec (h : protectedRodata si text = .ok rodata) :
    rodata.hi < 2 ^ 64 ∧ ((symbol si "BORINGSSL_bcm_rodata_start" = none ∧
      symbol si "BORINGSSL_bcm_rodata_end" = none ∧ rodata.size = 0) ∨
    ∃ start stop, symbol si "BORINGSSL_bcm_rodata_start" = some start ∧
      symbol si "BORINGSSL_bcm_rodata_end" = some stop ∧ Between si start stop rodata) := by
  unfold protectedRodata at h
  split at h
  case h_1 hstart hstop =>
    cases h
    exact ⟨by decide, .inl ⟨hstart, hstop, rfl⟩⟩
  case h_2 start stop hstart hstop =>
    obtain ⟨hbounds, h⟩ := ite_error_eq_ok.mp h
    obtain ⟨hvalid, h⟩ := ite_error_eq_ok.mp h
    cases h
    simp only [not_or, Bool.not_eq_false] at hvalid
    exact ⟨(mappedRange_spec hvalid.1).2.1,
      .inr ⟨start, stop, hstart, hstop, between_address hstart hstop hbounds⟩⟩
  case h_3 => cases h

/-- Memory as it is has the relocated words in place. -/
theorem image_relocated (h : ∀ p ∈ patches, read m p.lo 4 = wordBytes p.replacement) :
    Image m m patches false :=
  ⟨h, fun _ _ => rfl⟩

theorem image_original (m : Memory) (hperm : patches.Perm journal)
    (hapart : journal.Pairwise PatchesApart) : Image m (undo m journal) patches true :=
  ⟨fun _ hp => undo_patch m hapart (hperm.mem_iff.mp hp),
    fun _ hx => undo_untouched m journal (fun p hp => hx p (hperm.mem_iff.mpr hp))⟩

theorem pairwise_apart (hperm : patches.Perm journal)
    (hsorted : patches.Pairwise (fun p q => p.lo + 4 ≤ q.lo)) : journal.Pairwise PatchesApart := by
  refine (hperm.pairwise_iff (fun h => Apart.symm h)).mp (hsorted.imp (fun {p q} h => ?_))
  exact .inl h

theorem sortPatches_perm (journal : List Patch) : (sortPatches journal).Perm journal :=
  perm_insertionSort _ journal

/-- What `hash_module` computes in its two runs. -/
theorem hashModules_spec {hashes : Digest × Digest} (htext : text.hi < 2 ^ 64)
    (hrodata : rodata.hi < 2 ^ 64) (hjournal : checkJournal si m (sortPatches journal) 0 = .ok ())
    (h : hashModules sha256 si m text rodata (sortPatches journal) = .ok hashes) :
    hashes.1 = moduleHmac sha256 (undo m journal) text rodata ∧
      hashes.2 = moduleHmac sha256 m text rodata := by
  have hperm := sortPatches_perm journal
  obtain ⟨hpatch, hsorted⟩ := checkJournal_spec hjournal
  have hwrap := fun p hp => (hpatch p hp).1
  unfold hashModules at h
  split at h
  case h_1 original relocated horiginal hrelocated =>
    cases h
    exact ⟨hashModule_spec (image_original m hperm (pairwise_apart hperm hsorted)) htext hrodata
        hwrap hsorted horiginal,
      hashModule_spec (image_relocated fun p hp => (hpatch p hp).2.2) htext hrodata hwrap hsorted
        hrelocated⟩
  case h_2 => cases h

/-- Where the expected hash is: where the accessor says, or at the only place that holds the
original module's hash. -/
def Located (si : Soinfo) (env : Env) (m : Memory) (text rodata : Range) (original : Digest)
    (expected : UInt64) : Option Sym → Prop
  | some _ => expected = env.getHash
  | none => legacyExpectedHash si m text rodata original = some expected

/-- The 32 bytes lie in the file-backed part of a readable segment that is neither writable nor
executable. -/
def InReadOnlyData (si : Soinfo) (expected : UInt64) : Prop :=
  ∃ ph ∈ si.phdr, ph.type = ptLoad ∧ ph.flags &&& pfR = pfR ∧
    ph.flags &&& (pfW ||| pfX) = 0 ∧ InFile si ph ⟨expected, 32⟩

theorem separate_spec {hash : Range} (hhash : hash.hi < 2 ^ 64) (htext : text.hi < 2 ^ 64)
    (hrodata : rodata.hi < 2 ^ 64) (h : separate hash text rodata = true) :
    Apart hash text ∧ (rodata.size = 0 ∨ Apart hash rodata) := by
  simp only [separate, Bool.and_eq_true, Bool.not_eq_true', Bool.and_eq_false_iff,
    bne_eq_false_iff_eq] at h
  exact ⟨apart_of_not_overlaps hhash htext h.1,
    h.2.imp id (fun h => apart_of_not_overlaps hhash hrodata h)⟩

theorem locateHash_spec {getter : Option Sym} {original : Digest}
    (h : locateHash si env m getter text rodata original = .ok expected) :
    Located si env m text rodata original expected getter := by
  unfold locateHash at h
  split at h
  case h_1 =>
    cases h
    rfl
  case h_2 =>
    split at h
    case h_1 found hfound =>
      cases h
      exact hfound
    case h_2 => cases h

theorem checkExpected_spec {original : Digest} (htext : text.hi < 2 ^ 64)
    (hrodata : rodata.hi < 2 ^ 64) (h : checkExpected si m text rodata original expected = .ok ()) :
    expected.toNat + 32 < 2 ^ 64 ∧ InReadOnlyData si expected ∧ Apart ⟨expected, 32⟩ text ∧
      (rodata.size = 0 ∨ Apart ⟨expected, 32⟩ rodata) ∧
      read m expected.toNat 32 = original.bytes := by
  obtain ⟨hplace, h⟩ := ite_error_eq_ok.mp h
  obtain ⟨hequal, h⟩ := ite_error_eq_ok.mp h
  simp only [not_or, Bool.not_eq_false] at hplace hequal
  obtain ⟨-, hwrap, hdata⟩ := mappedRange_spec hplace.1
  obtain ⟨hapart, hapart'⟩ := separate_spec hwrap htext hrodata hplace.2
  rw [equalHash_iff (by rw [original.length, length_read])] at hequal
  exact ⟨hwrap, hdata, hapart, hapart', hequal.symm⟩

/-- What is known when the stored hash has been compared with the original module's. -/
structure Verified (sha256 : List UInt8 → Digest) (si : Soinfo) (env : Env) (m : Memory)
    (journal : List Patch) (text rodata : Range) (expected : UInt64) : Prop where
  ranges : Protected si text rodata
  located : Located si env m text rodata (moduleHmac sha256 (undo m journal) text rodata) expected
    (symbol si "FIPS_module_hash")
  fits : expected.toNat + 32 < 2 ^ 64
  data : InReadOnlyData si expected
  outsideText : Apart ⟨expected, 32⟩ text
  outsideRodata : rodata.size = 0 ∨ Apart ⟨expected, 32⟩ rodata
  original : read m expected.toNat 32 = (moduleHmac sha256 (undo m journal) text rodata).bytes

theorem verifyOriginal_spec {relocated : Digest}
    (h : verifyOriginal sha256 si env m journal (symbol si "BORINGSSL_bcm_text_start")
      (symbol si "BORINGSSL_bcm_text_end") (symbol si "FIPS_module_hash") =
        .ok (expected, relocated)) :
    ∃ text rodata, Verified sha256 si env m journal text rodata expected ∧
      relocated = moduleHmac sha256 m text rodata := by
  unfold verifyOriginal at h
  split at h
  case h_2 => cases h
  case h_1 start stop hstart hstop =>
    obtain ⟨-, h⟩ := ite_error_eq_ok.mp h
    obtain ⟨text, htext, h⟩ := bind_eq_ok.mp h
    obtain ⟨rodata, hrodata, h⟩ := bind_eq_ok.mp h
    obtain ⟨⟨⟩, hjournal, h⟩ := bind_eq_ok.mp h
    obtain ⟨hashes, hhashes, h⟩ := bind_eq_ok.mp h
    obtain ⟨expected', hlocate, h⟩ := bind_eq_ok.mp h
    obtain ⟨⟨⟩, hcheck, h⟩ := bind_eq_ok.mp h
    cases h
    obtain ⟨hbetween, htop⟩ := protectedText_spec hstart hstop htext
    obtain ⟨htop', hbetween'⟩ := protectedRodata_spec hrodata
    obtain ⟨horiginal, hrelocated⟩ := hashModules_spec htop htop' hjournal hhashes
    obtain ⟨hwrap, hdata, hapart, hapart', hread⟩ := checkExpected_spec htop htop' hcheck
    have hlocated := locateHash_spec hlocate
    rw [horiginal] at hread hlocated
    exact ⟨text, rodata, ⟨⟨⟨start, stop, hstart, hstop, hbetween⟩, hbetween'⟩, hlocated, hwrap,
      hdata, hapart, hapart', hread⟩, hrelocated⟩

/-! ## The write -/

/-- A word splits into what a mask clears and what it keeps. -/
theorem toNat_and_not_add (y mask : UInt64) :
    (y &&& ~~~mask).toNat + (y &&& mask).toNat = y.toNat := by
  have hsum : (y &&& ~~~mask) + (y &&& mask) = y := by
    apply UInt64.toBitVec_inj.mp
    simp only [UInt64.toBitVec_add, UInt64.toBitVec_and, UInt64.toBitVec_not]
    rw [BitVec.add_eq_or_of_and_eq_zero]
    · rw [← BitVec.and_or_distrib_left, BitVec.or_comm, BitVec.or_not_self, BitVec.and_allOnes]
    · ext i hi
      simp only [BitVec.getElem_and, BitVec.getElem_not, BitVec.getElem_zero]
      cases y.toBitVec[i] <;> cases mask.toBitVec[i] <;> rfl
  have hmod := congrArg UInt64.toNat hsum
  rw [UInt64.toNat_add] at hmod
  have hle : (y &&& ~~~mask).toNat ≤ y.toNat := UInt64.le_iff_toNat_le.mp UInt64.and_le_left
  have h1 := (y &&& mask).toNat_lt
  omega

/-- The pages hold the hash. -/
theorem hashPages_spec {pageSize : Int} {hash pages : Range} (hhash : hash.hi < 2 ^ 64)
    (h : hashPages si pageSize hash = .ok pages) :
    pages.lo ≤ hash.lo ∧ hash.hi ≤ pages.hi ∧ pages.hi < 2 ^ 64 := by
  simp only [hashPages] at h
  generalize UInt64.ofNat pageSize.toNat = page at h
  obtain ⟨-, h⟩ := ite_error_eq_ok.mp h
  obtain ⟨hroom, h⟩ := ite_error_eq_ok.mp h
  cases h
  have hsum := toNat_add_of_lt hhash
  have hroom' := not_uintptrMax_sub_lt hroom
  have htop : (hash.begin + hash.size + page - 1).toNat =
      (hash.begin + hash.size).toNat + (page - 1).toNat := by
    have h1 := UInt64.toNat_sub page 1
    have h2 := UInt64.toNat_sub (hash.begin + hash.size + page) 1
    have h3 := UInt64.toNat_add (hash.begin + hash.size) page
    omega
  have hfirst := toNat_and_not_add hash.begin (page - 1)
  have hlast := toNat_and_not_add (hash.begin + hash.size + page - 1) (page - 1)
  have hkept : ((hash.begin + hash.size + page - 1) &&& (page - 1)).toNat ≤ (page - 1).toNat :=
    UInt64.le_iff_toNat_le.mp UInt64.and_le_right
  dsimp only [Range.lo, Range.hi] at *
  rw [toNat_sub_of_le (by omega)]
  omega

/-- Writable and executable memory of the module is outside the range. -/
def AwayFromWritable (si : Soinfo) (r : Range) : Prop :=
  ∀ ph ∈ si.phdr, ph.type = ptLoad → ph.flags &&& (pfW ||| pfX) ≠ 0 →
    si.loadBias.toNat + ph.vaddr.toNat + ph.memsz.toNat ≤ r.lo ∨
      r.hi ≤ si.loadBias.toNat + ph.vaddr.toNat

theorem checkNeighbors_spec {pages : Range} {headers : List Phdr} (hpages : pages.hi < 2 ^ 64)
    (h : checkNeighbors si pages headers = .ok ()) :
    ∀ ph ∈ headers, ph.type = ptLoad → ph.flags &&& (pfW ||| pfX) ≠ 0 →
      si.loadBias.toNat + ph.vaddr.toNat + ph.memsz.toNat ≤ pages.lo ∨
        pages.hi ≤ si.loadBias.toNat + ph.vaddr.toNat := by
  induction headers with
  | nil =>
    intro ph hph
    cases hph
  | cons ph rest ih =>
    unfold checkNeighbors at h
    intro q hq htype hflags
    split at h
    case isTrue hskip =>
      rcases mem_cons.mp hq with rfl | hq
      · exact (hskip.elim (fun h => h htype) (fun h => hflags h)).elim
      · exact ih h q hq htype hflags
    case isFalse =>
      obtain ⟨hbounds, h⟩ := ite_error_eq_ok.mp h
      obtain ⟨hover, h⟩ := ite_error_eq_ok.mp h
      rcases mem_cons.mp hq with rfl | hq
      · simp only [not_or] at hbounds
        have hbegin := toNat_add_of_lt (not_uintptrMax_sub_lt hbounds.1)
        have hend := not_uintptrMax_sub_lt hbounds.2
        have hapart := apart_of_not_overlaps (b := ⟨si.loadBias + q.vaddr, q.memsz⟩) hpages
          hend (by simpa using hover)
        dsimp only [Apart, Range.lo, Range.hi] at hapart ⊢
        omega
      · exact ih h q hq htype hflags

theorem replaceHash_spec (si : Soinfo) (env : Env) (m : Memory) (relocated : Digest)
    (hhash : expected.toNat + 32 < 2 ^ 64) :
    ((replaceHash si env m expected relocated).2 = m ∧
      (replaceHash si env m expected relocated).1 ≠ .ok ()) ∨
    ((replaceHash si env m expected relocated).2 = write m expected.toNat relocated.bytes ∧
      AwayFromWritable si ⟨expected, 32⟩) := by
  unfold replaceHash
  split
  case h_1 => exact .inl ⟨rfl, by simp⟩
  case h_2 hpages =>
    have hhash' : Range.hi ⟨expected, 32⟩ < 2 ^ 64 := hhash
    obtain ⟨pages, hpages, hneighbors⟩ := bind_eq_ok.mp hpages
    obtain ⟨hlo, hhi, htop⟩ := hashPages_spec hhash' hpages
    have haway : AwayFromWritable si ⟨expected, 32⟩ := by
      intro ph hph htype hflags
      have := checkNeighbors_spec htop hneighbors ph hph htype hflags
      omega
    split
    case isTrue => exact .inl ⟨rfl, by simp [error]⟩
    case isFalse =>
      split
      case isTrue => exact .inr ⟨rfl, haway⟩
      case isFalse => exact .inr ⟨rfl, haway⟩


/-- Hashes of memories that agree on the protected ranges agree. -/
theorem moduleHmac_congr (sha256 : List UInt8 → Digest) {m' : Memory}
    (htext : ∀ x, text.lo ≤ x → x < text.hi → m x = m' x)
    (hrodata : rodata.size = 0 ∨ ∀ x, rodata.lo ≤ x → x < rodata.hi → m x = m' x) :
    moduleHmac sha256 m text rodata = moduleHmac sha256 m' text rodata := by
  have hread : read m text.lo text.size.toNat = read m' text.lo text.size.toNat :=
    read_congr htext
  unfold moduleHmac stream
  split
  case isTrue => rw [hread]
  case isFalse hsize =>
    have hread' : read m rodata.lo rodata.size.toNat = read m' rodata.lo rodata.size.toNat :=
      read_congr (hrodata.resolve_left hsize)
    rw [hread, hread']

theorem Verified.moduleHmac_write (h : Verified sha256 si env m journal text rodata expected)
    (digest : Digest) :
    moduleHmac sha256 (write m expected.toNat digest.bytes) text rodata =
      moduleHmac sha256 m text rodata := by
  have hlength := digest.length
  have haway : ∀ r : Range, Apart ⟨expected, 32⟩ r → ∀ x, r.lo ≤ x → x < r.hi →
      write m expected.toNat digest.bytes x = m x := by
    intro r hr x hlo hhi
    refine write_outside m _ ?_
    have hr' : expected.toNat + 32 ≤ r.lo ∨ r.hi ≤ expected.toNat := hr
    omega
  exact moduleHmac_congr sha256 (haway text h.outsideText) (h.outsideRodata.imp id (haway rodata))

/-- The cases of `hybris_relocate_module_integrity`. -/
theorem relocate_cases (sha256 : List UInt8 → Digest) (si : Soinfo) (env : Env) (m : Memory)
    (journal : List Patch) {result : Except String Unit} {m' : Memory}
    (h : relocateModuleIntegrity sha256 si env m journal = (result, m')) :
    (m' = m ∧ (result ≠ .ok () ∨ journal = [] ∨ symbol si "BORINGSSL_bcm_text_start" = none ∧
      symbol si "BORINGSSL_bcm_text_end" = none)) ∨
    ∃ text rodata expected, Verified sha256 si env m journal text rodata expected ∧
      (m' = m ∧ read m expected.toNat 32 = (moduleHmac sha256 m text rodata).bytes ∨
        m' = write m expected.toNat (moduleHmac sha256 m text rodata).bytes ∧
          read m expected.toNat 32 ≠ (moduleHmac sha256 m text rodata).bytes ∧
          AwayFromWritable si ⟨expected, 32⟩) := by
  simp only [relocateModuleIntegrity] at h
  split at h
  case isTrue hempty =>
    cases h
    exact .inl ⟨rfl, .inr (.inl hempty)⟩
  case isFalse =>
    split at h
    case isTrue hnone =>
      cases h
      exact .inl ⟨rfl, .inr (.inr ⟨hnone.1, hnone.2.1⟩)⟩
    case isFalse =>
      split at h
      case h_1 e _ =>
        cases h
        exact .inl ⟨rfl, .inl (by simp)⟩
      case h_2 expected relocated hverify =>
        obtain ⟨text, rodata, hverified, hrelocated⟩ := verifyOriginal_spec hverify
        have hequal : equalHash relocated.bytes (read m expected.toNat 32) = true ↔
            read m expected.toNat 32 = relocated.bytes := by
          rw [equalHash_iff (by rw [relocated.length, length_read]), eq_comm]
        split at h
        case isTrue hsame =>
          cases h
          rw [hequal, hrelocated] at hsame
          exact .inr ⟨text, rodata, expected, hverified, .inl ⟨rfl, hsame⟩⟩
        case isFalse hdiffer =>
          rw [hequal, hrelocated] at hdiffer
          rcases replaceHash_spec si env m relocated hverified.fits with ⟨hmem, hresult⟩ | ⟨hmem, haway⟩
          · rw [h] at hmem hresult
            exact .inl ⟨hmem, .inl hresult⟩
          · rw [h, hrelocated] at hmem
            exact .inr ⟨text, rodata, expected, hverified, .inr ⟨hmem, hdiffer, haway⟩⟩

/-- The TLS relocation of a module's integrity data never signs a modified module. If it changes
memory, the hash found before verifies the module with the journal undone; if it then succeeds,
the new hash verifies the module as it is; and only the hash changes, which lies in read-only
data of the module outside the protected ranges. If it succeeds without a change, the hash
verified the patched module already. -/
theorem modified_module_not_signed (sha256 : List UInt8 → Digest) (si : Soinfo) (env : Env)
    (m : Memory) (journal : List Patch) (result : Except String Unit) (m' : Memory)
    (h : relocateModuleIntegrity sha256 si env m journal = (result, m')) :
    (m' ≠ m → ∃ text rodata expected, Verified sha256 si env m journal text rodata expected ∧
      (result = .ok () →
        read m' expected.toNat 32 = (moduleHmac sha256 m' text rodata).bytes) ∧
      (∀ x, x < expected.toNat ∨ expected.toNat + 32 ≤ x → m' x = m x) ∧
      AwayFromWritable si ⟨expected, 32⟩) ∧
    (result = .ok () → m' = m → journal ≠ [] →
      (symbol si "BORINGSSL_bcm_text_start" ≠ none ∨ symbol si "BORINGSSL_bcm_text_end" ≠ none) →
      ∃ text rodata expected, Verified sha256 si env m journal text rodata expected ∧
        read m expected.toNat 32 = (moduleHmac sha256 m text rodata).bytes) := by
  rcases relocate_cases sha256 si env m journal h with
    ⟨rfl, hreason⟩ | ⟨text, rodata, expected, hverified, ⟨rfl, hsame⟩ | ⟨rfl, hdiffer, haway⟩⟩
  · refine ⟨fun hne => absurd rfl hne, fun hok _ hjournal hsymbols => ?_⟩
    rcases hreason with hresult | hempty | ⟨hstart, hstop⟩
    · exact absurd hok hresult
    · exact absurd hempty hjournal
    · exact (hsymbols.elim (fun hs => hs hstart) (fun hs => hs hstop)).elim
  · exact ⟨fun hne => absurd rfl hne, fun _ _ _ _ => ⟨text, rodata, expected, hverified, hsame⟩⟩
  · have hlength := (moduleHmac sha256 m text rodata).length
    have hwritten : read (write m expected.toNat (moduleHmac sha256 m text rodata).bytes)
        expected.toNat 32 = (moduleHmac sha256 m text rodata).bytes := by
      have hself := read_write_self m expected.toNat (moduleHmac sha256 m text rodata).bytes
      rwa [hlength] at hself
    constructor
    · intro _
      refine ⟨text, rodata, expected, hverified, fun _ => ?_, fun x hx => ?_, haway⟩
      · rw [hverified.moduleHmac_write, hwritten]
      · exact write_outside m _ (by omega)
    · intro _ hmem
      rw [hmem] at hwritten
      exact absurd hwritten hdiffer

/-- A module of sixteen bytes of text and a hash, whose hash function adds up the bytes. -/
def sampleModule : Soinfo where
  loadBias := 0x10000
  phdr := [⟨ptLoad, pfR ||| pfX, 0, 16, 16⟩, ⟨ptLoad, pfR, 0x10000, 64, 64⟩]
  findSymbolByName name :=
    if name = "BORINGSSL_bcm_text_start" then some ⟨0, 1, 0, 0⟩
    else if name = "BORINGSSL_bcm_text_end" then some ⟨0, 1, 16, 0⟩
    else if name = "FIPS_module_hash" then some ⟨sttFunc, 1, 0, 4⟩
    else none
  realpath := "libcrypto.so"

def sumDigest (data : List UInt8) : Digest :=
  ⟨List.replicate 32 (data.foldl (· + ·) 0), length_replicate⟩

def samplePatch : Patch := ⟨0x10004, 0xd53bd040, 0x14000001⟩

def sampleMemory : Memory := write (fun _ => 0) 0x10004 (wordBytes samplePatch.replacement)

def sampleResult : Except String Unit × Memory :=
  relocateModuleIntegrity sumDigest sampleModule ⟨0x20000, 4096, true, true⟩ sampleMemory
    [samplePatch]

theorem modified_module_not_signed_sample :
    sampleResult.2 ≠ sampleMemory ∧ ∃ text rodata expected,
      Verified sumDigest sampleModule ⟨0x20000, 4096, true, true⟩ sampleMemory [samplePatch]
        text rodata expected ∧
      read sampleResult.2 expected.toNat 32 =
        (moduleHmac sumDigest sampleResult.2 text rodata).bytes := by
  have hchanged : sampleResult.2 0x20000 ≠ sampleMemory 0x20000 := by decide +kernel
  have hne : sampleResult.2 ≠ sampleMemory := fun h => hchanged (congrFun h _)
  have hok : sampleResult.1 = .ok () := by decide +kernel
  obtain ⟨text, rodata, expected, hverified, hsigned, -, -⟩ :=
    (modified_module_not_signed sumDigest sampleModule ⟨0x20000, 4096, true, true⟩ sampleMemory
      [samplePatch] sampleResult.1 sampleResult.2 (Prod.eta sampleResult).symm).1 hne
  exact ⟨hne, text, rodata, expected, hverified, hsigned hok⟩

end LinkerIntegrity
