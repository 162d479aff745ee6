import Copy2.Lib.Regions
import Copy2.Lib.WrapAround
import Copy2.Memory.Buddy
import Copy2.Memory.Options

/-! # The arenas and the routing of frees

`createAllocator` cuts one mapping into the copy buffer, an arena for each thread and the main
arena, and maps a file for the disk arena. `AllocatorFree` finds the owner of a pointer by
arithmetic on its address. -/
namespace Copy2.Memory
open Copy2.Lib

def userTop : ℕ := 2 ^ 56

/-- What the operating system gives for mappings of these sizes. -/
structure Process (memSize diskSize : ℕ) where
  writable : ℕ → Bool
  mem : Option ℕ
  disk : Option ℕ
  /-- The first arena has room for the record of the allocator. -/
  room : Bool
  writable_lt : ∀ a, writable a = true → a < userTop
  mem_le : ∀ a ∈ mem, a + memSize ≤ userTop
  disk_le : ∀ a ∈ disk, a + diskSize ≤ userTop
  apart : ∀ a ∈ mem, ∀ b ∈ disk, a + memSize ≤ b ∨ b + diskSize ≤ a

/-- The allocator, with the allocators it embedded, the last one first. An embedded allocator
is known by its address. -/
structure Allocator where
  copyBuffer : Option ℕ
  memBase : ℕ
  nSubAllocators : ℕ
  subAllocatorSize : ℕ
  memAlloc : Option ℕ
  diskAlloc : Option ℕ
  embedded : List Buddy
deriving DecidableEq, Repr

section create
variable {memSize diskSize : ℕ} (p : Process memSize diskSize)

/-- A null pointer from `buddy_embed_alignment` ends the process. -/
def embedOrExit (main size alignment : ℕ) : Except Stop Buddy := do
  match ← embedAlignment p.writable main size alignment with
  | some b => .ok b
  | none => .error .exit

def embedSubAllocators (subBase subAllocatorSize : ℕ) : ℕ → Except Stop (List Buddy)
  | 0 => .ok []
  | i + 1 => do
    let embedded ← embedSubAllocators subBase subAllocatorSize i
    let suballoc ←
      embedOrExit p (ptrAdd subBase (i * subAllocatorSize % 2 ^ 64)) subAllocatorSize 128
    .ok (suballoc :: embedded)

/-- The rest of the mapping behind the copy buffer: the arenas of the threads when they fit,
and the main arena. -/
def createArenas (copyBuffer : Option ℕ) (mem memSize nSubAllocators subAllocatorSize : ℕ) :
    Except Stop Allocator := do
  let subRegionSize := nSubAllocators * subAllocatorSize % 2 ^ 64
  if subRegionSize ≠ 0 ∧ subRegionSize < memSize then
    let embedded ← embedSubAllocators p mem subAllocatorSize nSubAllocators
    let memAlloc ← embedOrExit p (ptrAdd mem subRegionSize) (memSize - subRegionSize) 128
    -- `alloc->memBase` is written also when there is no record
    if p.room then
      .ok ⟨copyBuffer, mem, nSubAllocators, subAllocatorSize, some memAlloc.address, none,
        memAlloc :: embedded⟩
    else .error .fault
  else
    let memAlloc ← embedOrExit p mem memSize 128
    if p.room then
      .ok ⟨copyBuffer, 0, 0, subAllocatorSize, some memAlloc.address, none, [memAlloc]⟩
    else .error .fault

def createMem (nSubAllocators subAllocatorSize copyBufferSize : ℕ) :
    Except Stop Allocator := do
  let some mem := p.mem | .error .exit
  if copyBufferSize < memSize then
    createArenas p (some mem) (ptrAdd mem copyBufferSize) (memSize - copyBufferSize)
      nSubAllocators subAllocatorSize
  else createArenas p none mem memSize nSubAllocators subAllocatorSize

/-- The arena in the mapping of the file, or in the rest of it behind the copy buffer. -/
def createDiskArena (alloc : Option Allocator) (copyBuffer : Option ℕ) (data diskSize : ℕ) :
    Except Stop (Option Allocator) := do
  let diskAlloc ← embedOrExit p data diskSize 64
  match alloc with
  | some alloc => .ok (some { alloc with
      copyBuffer, diskAlloc := some diskAlloc.address, embedded := diskAlloc :: alloc.embedded })
  | none =>
    if p.room then .ok (some ⟨copyBuffer, 0, 0, 0, none, some diskAlloc.address, [diskAlloc]⟩)
    else .ok none

/-- The disk branch. It takes the copy buffer when the memory had no room for it. -/
def createDisk (alloc : Option Allocator) (copyBufferSize : ℕ) :
    Except Stop (Option Allocator) := do
  let some data := p.disk | .error .exit
  let copyBuffer := alloc.bind (·.copyBuffer)
  if copyBuffer = none ∧ copyBufferSize < diskSize then
    createDiskArena p alloc (some data) (ptrAdd data copyBufferSize) (diskSize - copyBufferSize)
  else createDiskArena p alloc copyBuffer data diskSize

/-- `none` is the null pointer. -/
def createAllocator (nSubAllocators subAllocatorSize copyBufferSize : ℕ) :
    Except Stop (Option Allocator) := do
  let alloc ← if memSize ≠ 0
    then some <$> createMem p nSubAllocators subAllocatorSize copyBufferSize
    else .ok none
  if diskSize ≠ 0 then createDisk p alloc copyBufferSize else .ok alloc

end create

namespace Allocator
variable (alloc : Allocator)

def buddyAt (address : ℕ) : Option Buddy := alloc.embedded.find? (·.address == address)

def subAllocator (i : ℕ) : Option Buddy :=
  (getEmbedAtAlignment (ptrAdd alloc.memBase (i * alloc.subAllocatorSize % 2 ^ 64))
    alloc.subAllocatorSize 128).bind alloc.buddyAt

/-- One request to a buddy allocator, `answer` being what `buddy_calloc` gives. -/
def request (answer : Buddy → Option ℕ) (b : Option Buddy) : Option (Buddy × ℕ) :=
  b.bind fun b => (answer b).map (b, ·)

/-- `AllocatorAllocate`: the pointer returned, with the allocator that produced it. -/
def allocatorAllocate (tid : ℕ) (answer : Buddy → Option ℕ) : Option (Buddy × ℕ) :=
  let allocation := if alloc.nSubAllocators ≠ 0
    then request answer (alloc.subAllocator (tid % alloc.nSubAllocators)) else none
  (allocation.or (request answer (alloc.memAlloc.bind alloc.buddyAt))).or
    (request answer (alloc.diskAlloc.bind alloc.buddyAt))

/-- `AllocatorFree`: the allocators the pointer is passed to. -/
def allocatorFree (ptr : ℕ) : List Buddy :=
  if alloc.nSubAllocators ≠ 0 ∧ alloc.memBase ≤ ptr ∧
      (ptr - alloc.memBase) / alloc.subAllocatorSize < alloc.nSubAllocators
  then (alloc.subAllocator ((ptr - alloc.memBase) / alloc.subAllocatorSize)).toList
  else (alloc.memAlloc.bind alloc.buddyAt).toList ++ (alloc.diskAlloc.bind alloc.buddyAt).toList

def regions (copyBufferSize : ℕ) : List (ℕ × ℕ) :=
  alloc.embedded.map (fun b => (b.main, b.size)) ++
    alloc.copyBuffer.toList.map (·, copyBufferSize)

end Allocator
end Copy2.Memory
