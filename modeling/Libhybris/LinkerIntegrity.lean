import Libhybris.TlsPatcher
import Mathlib.Data.List.Sort

/-!
# Integrity of a module after its TLS relocations

`common/q/linker_integrity.cpp`. Addresses, sizes and symbol values are 64-bit words with
their wrap-around; SHA-256 is a function of the bytes it has been fed. What the module's
accessor returns, the page size and the two `mprotect` results are inputs. The lookup of a
symbol by its name is the module's.
-/
namespace LinkerIntegrity

open ByteMemory

def uintptrMax : UInt64 := 0xFFFFFFFFFFFFFFFF

structure Range where
  begin : UInt64
  size : UInt64
deriving DecidableEq, Repr

def overlaps (a b : Range) : Bool :=
  a.begin < b.begin + b.size && b.begin < a.begin + a.size

structure Phdr where
  type : UInt32
  flags : UInt32
  vaddr : UInt64
  filesz : UInt64
  memsz : UInt64
deriving DecidableEq, Repr

def ptLoad : UInt32 := 1

def pfX : UInt32 := 1

def pfW : UInt32 := 2

def pfR : UInt32 := 4

structure Sym where
  info : UInt8
  shndx : UInt16
  value : UInt64
  size : UInt64
deriving DecidableEq, Repr

def shnUndef : UInt16 := 0

def shnAbs : UInt16 := 0xfff1

def sttFunc : UInt8 := 2

structure Soinfo where
  loadBias : UInt64
  phdr : List Phdr
  findSymbolByName : String → Option Sym
  realpath : String

/-- The test `mapped_range` makes of one program header. -/
def mapsRange (si : Soinfo) (range : Range) (required forbidden : UInt32) (ph : Phdr) : Bool :=
  if ph.type ≠ ptLoad ∨ ph.flags &&& required ≠ required ∨ ph.flags &&& forbidden ≠ 0 ∨
      uintptrMax - si.loadBias < ph.vaddr then false
  else
    let begin := si.loadBias + ph.vaddr
    begin ≤ range.begin && range.begin - begin ≤ ph.filesz &&
      range.size ≤ ph.filesz - (range.begin - begin)

def mappedRange (si : Soinfo) (range : Range) (required forbidden : UInt32) : Bool :=
  if range.size = 0 ∨ uintptrMax - range.size < range.begin then false
  else si.phdr.any (mapsRange si range required forbidden)

def symbol (si : Soinfo) (name : String) : Option Sym :=
  match si.findSymbolByName name with
  | none => none
  | some result =>
    if result.shndx = shnUndef ∨ result.shndx = shnAbs ∨
        uintptrMax - si.loadBias < result.value then none
    else some result

def address (si : Soinfo) (sym : Sym) : UInt64 := si.loadBias + sym.value

/-- A SHA-256 result. -/
structure Digest where
  bytes : List UInt8
  length : bytes.length = 32

/-- The inner hash of the HMAC: the bytes it has been fed. -/
structure ModuleHmac where
  inner : List UInt8

def ModuleHmac.new : ModuleHmac := ⟨List.replicate 64 0x36⟩

def ModuleHmac.bytes (hash : ModuleHmac) (data : List UInt8) : ModuleHmac :=
  ⟨hash.inner ++ data⟩

/-- The length as eight bytes, least significant first. -/
def lengthBytes (size : UInt64) : List UInt8 :=
  (List.range 8).map (fun i => (size >>> UInt64.ofNat (8 * i)).toUInt8)

def ModuleHmac.length (hash : ModuleHmac) (size : UInt64) : ModuleHmac :=
  hash.bytes (lengthBytes size)

def ModuleHmac.finish (sha256 : List UInt8 → Digest) (hash : ModuleHmac) : Digest :=
  sha256 (List.replicate 64 0x5c ++ (sha256 hash.inner).bytes)

structure Patch where
  address : UInt64
  original : UInt32
  replacement : UInt32
deriving DecidableEq, Repr

def Patch.range (patch : Patch) : Range := ⟨patch.address, 4⟩

/-- The word of the patched image, or of the image before. -/
def Patch.word (patch : Patch) (original : Bool) : UInt32 :=
  if original then patch.original else patch.replacement

/-- The loop of `hash_range`, with its cursor. -/
def hashPatches (m : Memory) (range : Range) (original : Bool) :
    List Patch → UInt64 → ModuleHmac → Option (UInt64 × ModuleHmac)
  | [], cursor, hash => some (cursor, hash)
  | patch :: rest, cursor, hash =>
    if overlaps range patch.range = false then hashPatches m range original rest cursor hash
    else if patch.address < cursor ∨ range.begin + range.size - patch.address < 4 then none
    else
      hashPatches m range original rest (patch.address + 4)
        ((hash.bytes (read m cursor.toNat (patch.address - cursor).toNat)).bytes
          (wordBytes (patch.word original)))

def hashRange (m : Memory) (hash : ModuleHmac) (range : Range) (patches : List Patch)
    (original : Bool) : Option ModuleHmac :=
  (hashPatches m range original patches range.begin hash).map fun r =>
    r.2.bytes (read m r.1.toNat (range.begin + range.size - r.1).toNat)

def hashModule (sha256 : List UInt8 → Digest) (m : Memory) (text rodata : Range)
    (patches : List Patch) (original : Bool) : Option Digest :=
  if rodata.size = 0 then
    (hashRange m .new text patches original).map (ModuleHmac.finish sha256)
  else
    ((hashRange m (ModuleHmac.new.length text.size) text patches original).bind fun hash =>
      hashRange m (hash.length rodata.size) rodata patches original).map
        (ModuleHmac.finish sha256)

def equalHash (a b : List UInt8) : Bool :=
  (a.zip b).foldl (fun difference p => difference ||| (p.1 ^^^ p.2)) 0 = 0

/-- The places a legacy hash is looked for: every offset of every read-only segment. -/
def legacyCandidates (si : Soinfo) : List UInt64 :=
  si.phdr.flatMap fun ph =>
    if ph.type ≠ ptLoad ∨ ph.flags ≠ pfR ∨ ph.filesz < 32 ∨
        uintptrMax - si.loadBias < ph.vaddr then []
    else if mappedRange si ⟨si.loadBias + ph.vaddr, ph.filesz⟩ pfR (pfW ||| pfX) = false then []
    else (List.range (ph.filesz.toNat - 32 + 1)).map fun i =>
      si.loadBias + ph.vaddr + UInt64.ofNat i

/-- The expected hash lies outside the protected ranges. -/
def separate (hash text rodata : Range) : Bool :=
  !overlaps hash text && !(rodata.size != 0 && overlaps hash rodata)

def legacyMatches (m : Memory) (text rodata : Range) (original : Digest) (cursor : UInt64) : Bool :=
  equalHash (read m cursor.toNat 32) original.bytes && separate ⟨cursor, 32⟩ text rodata

/-- Exactly one match is accepted. -/
def legacyScan (found? : UInt64 → Bool) : List UInt64 → Option UInt64 → Option UInt64
  | [], found => found
  | cursor :: rest, found =>
    if found? cursor then
      match found with
      | some _ => none
      | none => legacyScan found? rest (some cursor)
    else legacyScan found? rest found

def legacyExpectedHash (si : Soinfo) (m : Memory) (text rodata : Range) (original : Digest) :
    Option UInt64 :=
  legacyScan (legacyMatches m text rodata original) (legacyCandidates si) none

def error {α : Type} (si : Soinfo) (message : String) : Except String α :=
  .error ("module integrity: " ++ si.realpath ++ ": " ++ message)

def protectedText (si : Soinfo) (start stop : Sym) : Except String Range :=
  let textStart := address si start
  let textEnd := address si stop
  if textEnd ≤ textStart then error si "invalid protected text bounds"
  else
    let text : Range := ⟨textStart, textEnd - textStart⟩
    if mappedRange si text pfX pfW = false then
      error si "protected text is not read-only module code"
    else .ok text

def protectedRodata (si : Soinfo) (text : Range) : Except String Range :=
  match symbol si "BORINGSSL_bcm_rodata_start", symbol si "BORINGSSL_bcm_rodata_end" with
  | none, none => .ok ⟨0, 0⟩
  | some roStart, some roEnd =>
    let begin := address si roStart
    let stop := address si roEnd
    if stop ≤ begin then error si "invalid protected rodata bounds"
    else
      let rodata : Range := ⟨begin, stop - begin⟩
      if mappedRange si rodata pfR pfW = false ∨ overlaps text rodata = true then
        error si "invalid protected rodata mapping"
      else .ok rodata
  | _, _ => error si "incomplete protected rodata bounds"

/-- The loop over the sorted journal. -/
def checkJournal (si : Soinfo) (m : Memory) : List Patch → UInt64 → Except String Unit
  | [], _ => .ok ()
  | patch :: rest, previousEnd =>
    if mappedRange si patch.range pfX pfW = false ∨ patch.address < previousEnd ∨
        TlsPatcher.isTlsMrs patch.original = false ∨
        patch.replacement &&& 0xfc000000 ≠ 0x14000000 then
      error si "invalid TLS relocation journal"
    else if readWord m patch.address.toNat ≠ patch.replacement then
      error si "TLS relocation changed after patching"
    else checkJournal si m rest (patch.address + 4)

/-- `std::sort` by address. The loop after it rejects a journal with two equal addresses, so
the order it leaves them in does not matter. -/
def sortPatches (journal : List Patch) : List Patch :=
  journal.insertionSort (fun a b => a.address ≤ b.address)

def hashModules (sha256 : List UInt8 → Digest) (si : Soinfo) (m : Memory) (text rodata : Range)
    (patches : List Patch) : Except String (Digest × Digest) :=
  match hashModule sha256 m text rodata patches true,
    hashModule sha256 m text rodata patches false with
  | some original, some relocated => .ok (original, relocated)
  | _, _ => error si "TLS relocation crosses integrity-region bounds"

/-- What lies outside the linker: the pointer the accessor returns, `sysconf(_SC_PAGESIZE)`
and whether each `mprotect` succeeds. -/
structure Env where
  getHash : UInt64
  pageSize : Int
  unprotect : Bool
  protect : Bool

/-- The public accessor is preferred; older releases are searched. -/
def locateHash (si : Soinfo) (env : Env) (m : Memory) (getter : Option Sym) (text rodata : Range)
    (original : Digest) : Except String UInt64 :=
  match getter with
  | some _ => .ok env.getHash
  | none =>
    match legacyExpectedHash si m text rodata original with
    | some found => .ok found
    | none => error si "original module HMAC missing or ambiguous in legacy module"

def checkExpected (si : Soinfo) (m : Memory) (text rodata : Range) (original : Digest)
    (expected : UInt64) : Except String Unit :=
  if mappedRange si ⟨expected, 32⟩ pfR (pfW ||| pfX) = false ∨
      separate ⟨expected, 32⟩ text rodata = false then
    error si "expected hash is not separate read-only module data"
  else if equalHash original.bytes (read m expected.toNat 32) = false then
    error si "original module HMAC mismatch; refusing to re-sign modified input"
  else .ok ()

/-- The pages `mprotect` is called on. -/
def hashPages (si : Soinfo) (pageSize : Int) (hash : Range) : Except String Range :=
  let page := UInt64.ofNat pageSize.toNat
  if pageSize ≤ 0 ∨ page &&& (page - 1) ≠ 0 then error si "invalid page size"
  else if uintptrMax - (page - 1) < hash.begin + hash.size then error si "hash page overflow"
  else
    let first := hash.begin &&& ~~~(page - 1)
    let last := (hash.begin + hash.size + page - 1) &&& ~~~(page - 1)
    .ok ⟨first, last - first⟩

/-- No writable or executable segment shares the pages. -/
def checkNeighbors (si : Soinfo) (pages : Range) : List Phdr → Except String Unit
  | [] => .ok ()
  | ph :: rest =>
    if ph.type ≠ ptLoad ∨ ph.flags &&& (pfW ||| pfX) = 0 then checkNeighbors si pages rest
    else if uintptrMax - si.loadBias < ph.vaddr ∨
        uintptrMax - (si.loadBias + ph.vaddr) < ph.memsz then
      error si "invalid neighboring segment bounds"
    else if overlaps pages ⟨si.loadBias + ph.vaddr, ph.memsz⟩ then
      error si "expected-hash page shares writable or executable data"
    else checkNeighbors si pages rest

def replaceHash (si : Soinfo) (env : Env) (m : Memory) (expected : UInt64) (relocated : Digest) :
    Except String Unit × Memory :=
  match (hashPages si env.pageSize ⟨expected, 32⟩).bind
      (fun pages => checkNeighbors si pages si.phdr) with
  | .error e => (.error e, m)
  | .ok _ =>
    if env.unprotect = false then (error si "cannot update private expected-hash page", m)
    else
      let m' := write m expected.toNat relocated.bytes
      if env.protect = false then (error si "cannot restore expected-hash page protection", m')
      else (.ok (), m')

/-- Everything up to the comparison of the stored hash with the original module's: where the
hash is and what the relocated module's is. -/
def verifyOriginal (sha256 : List UInt8 → Digest) (si : Soinfo) (env : Env) (m : Memory)
    (journal : List Patch) (start stop getter : Option Sym) : Except String (UInt64 × Digest) :=
  match start, stop with
  | some start, some stop =>
    if ∃ sym ∈ getter, sym.info &&& 0xf ≠ sttFunc ∨
        mappedRange si ⟨address si sym, sym.size⟩ pfX pfW = false then
      error si "invalid FIPS_module_hash accessor"
    else do
      let text ← protectedText si start stop
      let rodata ← protectedRodata si text
      let patches := sortPatches journal
      checkJournal si m patches 0
      let hashes ← hashModules sha256 si m text rodata patches
      let expected ← locateHash si env m getter text rodata hashes.1
      checkExpected si m text rodata hashes.1 expected
      return (expected, hashes.2)
  | _, _ => error si "TLS-rewritten module lacks exported integrity metadata"

def relocateModuleIntegrity (sha256 : List UInt8 → Digest) (si : Soinfo) (env : Env) (m : Memory)
    (journal : List Patch) : Except String Unit × Memory :=
  let start := symbol si "BORINGSSL_bcm_text_start"
  let stop := symbol si "BORINGSSL_bcm_text_end"
  let getter := symbol si "FIPS_module_hash"
  let check := symbol si "BORINGSSL_integrity_test"
  if journal = [] then (.ok (), m)
  else if start = none ∧ stop = none ∧ getter = none ∧ check = none then (.ok (), m)
  else
    match verifyOriginal sha256 si env m journal start stop getter with
    | .error e => (.error e, m)
    | .ok (expected, relocated) =>
      if equalHash relocated.bytes (read m expected.toNat 32) then (.ok (), m)
      else replaceHash si env m expected relocated

end LinkerIntegrity
