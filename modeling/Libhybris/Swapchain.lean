import Libhybris.Vulkan
import Libhybris.Transition

/-!
# The adapter's swapchains over a native window

The swapchain registry of the Vulkan adapter with creation, acquisition,
presentation, destruction and device release. Results of the native window
(extent, dequeue, queue, configure) and of the driver are arguments, so every
combination of them is a run. The only effect kept of a window operation is
its entry in the log of window calls, newest first.

A native buffer is named by its identity: an image keeps a reference to its
buffer, so equal pointers are equal live buffers.
-/
namespace Swapchain

open Vulkan

abbrev Window := Nat
abbrev Buffer := Nat
/-- A swapchain handle is the address of its state; zero is the null handle. -/
abbrev Handle := Nat

inductive ImageState where
  | free | acquired | presented
  deriving DecidableEq, Repr

/-- One image of a swapchain. `cancelled` is a history variable that no branch
reads: a present of this image gave its buffer back through `cancel`. -/
structure SwapchainImage where
  image : Nat := 0
  native : Option Buffer := none
  state : ImageState := .free
  acquireFence : Int := -1
  presentReady : Nat := 0
  cancelled : Bool := false
  deriving DecidableEq, Repr

structure SwapchainState where
  handle : Handle
  device : Nat
  deviceGeneration : Nat
  surface : Nat
  window : Window
  extent : Nat × Nat
  presentationStatus : VkResult := .success
  images : List SwapchainImage
  retired : Bool := false
  deriving DecidableEq, Repr

/-- The window operations the adapter performs. A failed dequeue leaves no
entry; a rejected queue is one that returned an error. -/
inductive WindowCall where
  | disconnect (window : Window)
  | configure (window : Window) (extent : Nat × Nat) (pixel count : Nat) (failed : Bool)
  | dequeued (window : Window) (buffer : Buffer)
  | queued (window : Window) (buffer : Buffer) (fence : Int) (rejected : Bool)
  | cancelled (window : Window) (buffer : Buffer) (fence : Int)
  deriving DecidableEq, Repr

structure World where
  swapchains : List SwapchainState := []
  calls : List WindowCall := []
  deriving DecidableEq, Repr

structure DequeueResult where
  error : Int
  buffer : Option Buffer
  fence : Int
  deriving DecidableEq, Repr

structure ExtentResult where
  error : Int
  width : Nat
  height : Nat
  deriving DecidableEq, Repr

/-- What `hybris_icd_lookup_device` and `hybris_icd_lookup_queue` fill in. -/
structure DeviceContext where
  handle : Nat
  generation : Nat
  instanceGeneration : Nat
  swapchainEnabled : Bool
  deriving DecidableEq, Repr

def eagain : Int := 11
def enomem : Int := 12
def etimedout : Int := 110
def estale : Int := 116

def findSwapchain (chains : List SwapchainState) (handle : Handle) : Option SwapchainState :=
  chains.find? (fun state => state.handle = handle)

/-- Write through the pointer that `findSwapchain` returned. -/
def update (chains : List SwapchainState) (handle : Handle) (state : SwapchainState) :
    List SwapchainState :=
  match chains with
  | [] => []
  | first :: rest =>
    if first.handle = handle then state :: rest else first :: update rest handle state

/-- Retirement marks the old swapchain and disconnects its window. -/
def retireSwapchain (w : World) (handle : Handle) : World :=
  match findSwapchain w.swapchains handle with
  | none => w
  | some state =>
    ⟨update w.swapchains handle { state with retired := true }, .disconnect state.window :: w.calls⟩

def rgba8888 : Nat := 1
def rgbx8888 : Nat := 2
def bgra8888 : Nat := 5

def halFormat (format : Nat) : Option Nat :=
  if format = 37 then some rgba8888 else if format = 44 then some bgra8888 else none

/-- The cleanup loop over the images, on the log. The driver objects it also
destroys hold no native buffer. -/
def destroyImages (window : Window) (retired : Bool) :
    List SwapchainImage → List WindowCall → List WindowCall
  | [], calls => calls
  | image :: rest, calls =>
    destroyImages window retired rest
      (match image.native with
      | some buffer =>
        if retired = false ∧ image.state ≠ .presented then
          .cancelled window buffer image.acquireFence :: calls
        else calls
      | none => calls)

structure CreateInfo where
  sType : Nat := 1000001000
  flags : Nat := 0
  surface : Nat
  minImageCount : Nat
  imageFormat : Nat
  imageColorSpace : Nat := 0
  imageExtent : Nat × Nat
  imageArrayLayers : Nat := 1
  imageUsage : Nat
  preTransform : Nat := 1
  compositeAlpha : Nat
  presentMode : Nat
  oldSwapchain : Handle := 0
  deviceGroupModes : List Nat := []
  deriving DecidableEq, Repr

structure SurfaceWindow where
  window : Window
  generation : Nat
  deriving DecidableEq, Repr

/-- Everything outside the adapter that one creation consults. -/
structure CreateEnv where
  context : Option DeviceContext
  surfaceWindow : Option SurfaceWindow
  headless : Bool
  capabilities : VkResult
  supportedUsageFlags : Nat
  supportedCompositeAlpha : Nat
  imageProperties : VkResult
  maxExtent : Nat × Nat
  usage2 : Option VkResult
  usageBits : Nat
  stateMemory : Option Handle
  imagesMemory : Bool
  configureFailed : Bool
  dequeue : Nat → DequeueResult
  importImage : Nat → VkResult × Nat
  createSemaphore : Nat → VkResult × Nat

/-- The checks of the create info before anything is allocated, in source
order; a passed check yields the window and the pixel format. -/
def checkCreate (chains : List SwapchainState) (context : DeviceContext) (info : CreateInfo)
    (env : CreateEnv) : Except VkResult (Window × Nat) :=
  if info.imageExtent.1 = 0 ∨ info.imageExtent.2 = 0 then .error .errorInitializationFailed
  else match halFormat info.imageFormat with
  | none => .error .errorFormatNotSupported
  | some format =>
    let pixel := if info.compositeAlpha = 1 ∧ format = rgba8888 then rgbx8888 else format
    match env.surfaceWindow with
    | none => .error .errorSurfaceLost
    | some surface =>
      if surface.generation ≠ context.instanceGeneration then .error .errorSurfaceLost
      else if chains.any (fun active => active.surface = info.surface ∧ active.retired = false) then
        .error .errorNativeWindowInUse
      else if info.flags ≠ 0 ∨ info.imageArrayLayers ≠ 1 ∨
          (info.presentMode ≠ 2 ∧ ¬(env.headless ∧ info.presentMode = 0)) ∨
          info.preTransform ≠ 1 ∨ info.imageColorSpace ≠ 0 then
        .error .errorInitializationFailed
      else if env.capabilities ≠ .success then .error env.capabilities
      else if env.imageProperties ≠ .success then .error env.imageProperties
      else if info.imageExtent.1 > env.maxExtent.1 ∨ info.imageExtent.2 > env.maxExtent.2 ∨
          info.imageUsage &&& env.supportedUsageFlags ≠ info.imageUsage ∨
          info.compositeAlpha &&& env.supportedCompositeAlpha = 0 then
        .error .errorInitializationFailed
      else if info.deviceGroupModes.any (fun modes => modes ≠ 1) then
        .error .errorInitializationFailed
      else match env.usage2 with
      | none => .error .errorExtensionNotPresent
      | some result =>
        if result ≠ .success then .error result
        else if env.usageBits >>> 32 ≠ 0 then .error .errorFormatNotSupported
        else if info.minImageCount < 2 ∨ info.minImageCount > 8 then
          .error .errorInitializationFailed
        else .ok (surface.window, pixel)

/-- Dequeue, import and give a semaphore to image `i` and the `n - 1` after it.
Every failure runs the cleanup loop over what has been dequeued so far. -/
def createImages (env : CreateEnv) (state : SwapchainState) :
    Nat → Nat → List SwapchainImage → List WindowCall →
      Except VkResult (List SwapchainImage) × List WindowCall
  | 0, _, images, calls => (.ok images, calls)
  | n + 1, i, images, calls =>
    let r := env.dequeue i
    match r.error, r.buffer with
    | 0, some buffer =>
      let imported := env.importImage i
      let semaphore := env.createSemaphore i
      let calls := .dequeued state.window buffer :: calls
      let image : SwapchainImage :=
        { native := some buffer, acquireFence := r.fence, image := imported.2 }
      if imported.1 ≠ .success then
        (.error imported.1, destroyImages state.window state.retired (images.set i image) calls)
      else if semaphore.1 ≠ .success then
        (.error semaphore.1, destroyImages state.window state.retired (images.set i image) calls)
      else
        createImages env state n (i + 1) (images.set i { image with presentReady := semaphore.2 })
          calls
    | error, _ =>
      (.error (if error = -enomem then .errorOutOfHostMemory else .errorUnknown),
        destroyImages state.window state.retired images calls)

/-- The zeroed image array, every acquire fence set to -1. -/
def blankImages (count : Nat) : List SwapchainImage := List.replicate count {}

/-- The state before any buffer is dequeued. -/
def newState (handle : Handle) (device : Nat) (context : DeviceContext) (info : CreateInfo)
    (window : Window) : SwapchainState where
  handle := handle
  device := device
  deviceGeneration := context.generation
  surface := info.surface
  window := window
  extent := info.imageExtent
  images := blankImages info.minImageCount

/-- Everything after the checks: the state, a fresh pool and its images. -/
def createPool (w : World) (device : Nat) (context : DeviceContext) (info : CreateInfo)
    (env : CreateEnv) (window : Window) (pixel : Nat) : VkResult × World :=
  match env.stateMemory with
  | none => (.errorOutOfHostMemory, w)
  | some handle =>
    if env.imagesMemory = false then (.errorOutOfHostMemory, w)
    else
      let images := blankImages info.minImageCount
      let state := newState handle device context info window
      let calls := .configure window info.imageExtent pixel info.minImageCount
        env.configureFailed :: .disconnect window :: w.calls
      if env.configureFailed then
        (.errorInitializationFailed,
          ⟨w.swapchains, .disconnect window :: destroyImages window false images calls⟩)
      else match createImages env state info.minImageCount 0 images calls with
        | (.error result, calls) => (result, ⟨w.swapchains, calls⟩)
        | (.ok images, calls) => (.success, ⟨{ state with images } :: w.swapchains, calls⟩)

/-- A missing info stands for a null info or a null output pointer. -/
def createSwapchain (w : World) (device : Nat) (info : Option CreateInfo) (env : CreateEnv) :
    VkResult × World :=
  match info with
  | none => (.errorInitializationFailed, w)
  | some info =>
    if info.sType ≠ 1000001000 then (.errorInitializationFailed, w)
    else match env.context with
    | none => (.errorExtensionNotPresent, w)
    | some context =>
      if context.swapchainEnabled = false then (.errorExtensionNotPresent, w)
      else
        let w := if info.oldSwapchain ≠ 0 then retireSwapchain w info.oldSwapchain else w
        match checkCreate w.swapchains context info env with
        | .error result => (result, w)
        | .ok (window, pixel) => createPool w device context info env window pixel

/-- Remove the swapchain from the registry if it belongs to the device. -/
def unlinkSwapchain (device : Nat) (handle : Handle) :
    List SwapchainState → Option (SwapchainState × List SwapchainState)
  | [] => none
  | state :: rest =>
    if state.handle = handle then
      if state.device = device then some (state, rest) else none
    else (unlinkSwapchain device handle rest).map (fun r => (r.1, state :: r.2))

def destroySwapchain (w : World) (device : Nat) (handle : Handle) : World :=
  if device = 0 ∨ handle = 0 then w
  else match unlinkSwapchain device handle w.swapchains with
  | none => w
  | some (state, rest) =>
    let calls := destroyImages state.window state.retired state.images w.calls
    ⟨rest, if state.retired then calls else .disconnect state.window :: calls⟩

/-- `hybris_icd_swapchain_release_device`: the orphans are cleaned up in the
reverse of the registry's order. -/
def releaseDevice (w : World) (device : Nat) : World :=
  let orphans := (w.swapchains.filter (fun state => state.device = device)).reverse
  ⟨w.swapchains.filter (fun state => state.device ≠ device),
    orphans.foldl
      (fun calls state => destroyImages state.window state.retired state.images calls) w.calls⟩

/-- Surface loss is sticky; a size mismatch is reported and forgotten. -/
def presentationStatus (state : SwapchainState) (r : ExtentResult) : VkResult × SwapchainState :=
  if state.presentationStatus ≠ .success then (state.presentationStatus, state)
  else if r.error ≠ 0 then
    (.errorSurfaceLost, { state with presentationStatus := .errorSurfaceLost })
  else if (r.width ≠ 0 ∧ r.width ≠ state.extent.1) ∨ (r.height ≠ 0 ∧ r.height ≠ state.extent.2) then
    (.suboptimal, state)
  else (.success, state)

/-- Choose the image to acquire: one that is still free, or the one whose
buffer the window hands out. The fence goes with the index. -/
def acquireSlot (state : SwapchainState) (r : DequeueResult) (calls : List WindowCall) :
    Except VkResult (Nat × Int) × SwapchainState × List WindowCall :=
  match state.images.findIdx? (fun image => image.state = .free) with
  | some i =>
    let image := state.images[i]?.getD {}
    (.ok (i, image.acquireFence),
      { state with images := state.images.set i { image with acquireFence := -1 } }, calls)
  | none =>
    if r.error = -estale then
      (.error .errorOutOfDate, { state with presentationStatus := .errorOutOfDate }, calls)
    else if r.error = -eagain then (.error .notReady, state, calls)
    else if r.error = -etimedout then (.error .timeout, state, calls)
    else match r.error, r.buffer with
    | 0, some buffer =>
      let calls := .dequeued state.window buffer :: calls
      match state.images.findIdx? (fun image => image.native = some buffer) with
      | some i =>
        let image := state.images[i]?.getD {}
        (.ok (i, r.fence),
          { state with images := state.images.set i { image with state := .free } }, calls)
      | none => (.error .errorUnknown, state, .cancelled state.window buffer r.fence :: calls)
    | _, _ => (.error .errorUnknown, state, calls)

structure AcquireEnv where
  context : Option DeviceContext
  extent : ExtentResult
  dequeue : DequeueResult
  /-- `vkAcquireImageANDROID`, when the driver resolves it. -/
  acquire : Option VkResult

/-- The result, the acquired index and the new world. A missing context stands
for an unknown device or a null index pointer. -/
def acquireNextImage (w : World) (device : Nat) (handle : Handle) (env : AcquireEnv) :
    VkResult × Option Nat × World :=
  match env.context with
  | none => (.errorExtensionNotPresent, none, w)
  | some context =>
    if context.swapchainEnabled = false then (.errorExtensionNotPresent, none, w)
    else match findSwapchain w.swapchains handle with
    | none => (.errorOutOfDate, none, w)
    | some state =>
      if state.device ≠ device ∨ state.retired then (.errorOutOfDate, none, w)
      else
        let (status, state) := presentationStatus state env.extent
        if status ≠ .success ∧ status ≠ .suboptimal then
          (status, none, ⟨update w.swapchains handle state, w.calls⟩)
        else match acquireSlot state env.dequeue w.calls with
        | (.error result, state, calls) =>
          (result, none, ⟨update w.swapchains handle state, calls⟩)
        | (.ok (slot, _), state, calls) =>
          match env.acquire with
          | none => (.errorExtensionNotPresent, none, ⟨update w.swapchains handle state, calls⟩)
          | some result =>
            if result ≠ .success then (result, none, ⟨update w.swapchains handle state, calls⟩)
            else
              let image := state.images[slot]?.getD {}
              let images := state.images.set slot { image with state := .acquired }
              (status, some slot, ⟨update w.swapchains handle { state with images }, calls⟩)

structure PresentEnv where
  /-- `vkQueueSignalReleaseImageANDROID` with the fence it returns. -/
  release : Option (VkResult × Int)
  extent : ExtentResult
  queueError : Int

def presentOne (w : World) (context : DeviceContext) (handle : Handle) (index : Nat)
    (env : PresentEnv) : VkResult × World :=
  match findSwapchain w.swapchains handle with
  | none => (.errorOutOfDate, w)
  | some state =>
    if state.device ≠ context.handle ∨ state.deviceGeneration ≠ context.generation then
      (.errorOutOfDate, w)
    else match state.images[index]? with
    | none => (.errorUnknown, w)
    | some image =>
      if image.state ≠ .acquired then (.errorUnknown, w)
      else match env.release with
      | none => (.errorExtensionNotPresent, w)
      | some (released, fence) =>
        if released ≠ .success then (released, w)
        else
          let (status, state) := presentationStatus state env.extent
          let native := image.native.getD 0
          let given := state.images.set index { image with state := .free, cancelled := true }
          if status ≠ .success ∧ status ≠ .suboptimal then
            (status, ⟨update w.swapchains handle { state with images := given },
              .cancelled state.window native fence :: w.calls⟩)
          else if env.queueError ≠ 0 then
            (.errorSurfaceLost,
              ⟨update w.swapchains handle
                  { state with images := given, presentationStatus := .errorSurfaceLost },
                .cancelled state.window native (-1) ::
                  .queued state.window native fence true :: w.calls⟩)
          else
            let images := state.images.set index { image with state := .presented }
            (status, ⟨update w.swapchains handle { state with images },
              .queued state.window native fence false :: w.calls⟩)

structure PresentEntry where
  swapchain : Handle
  imageIndex : Nat
  env : PresentEnv

/-- The result reported for the whole list: device loss, then surface loss,
then the first failure. -/
def worse (worst result : VkResult) : VkResult :=
  if worst = .success ∨ result = .errorDeviceLost ∨
      (result = .errorSurfaceLost ∧ worst ≠ .errorDeviceLost) ∨
      (result.code < 0 ∧ worst = .suboptimal) then result else worst

/-- The worst result, the result of each entry and the new world. -/
def presentAll (context : DeviceContext) :
    List PresentEntry → VkResult → World → VkResult × List VkResult × World
  | [], worst, w => (worst, [], w)
  | entry :: rest, worst, w =>
    let (result, w) := presentOne w context entry.swapchain entry.imageIndex entry.env
    let (worst, results, w) := presentAll context rest (worse worst result) w
    (worst, result :: results, w)

/-- Every entry names an acquired image, tested before the waits are fanned out. -/
def presentable (w : World) (context : DeviceContext) (entry : PresentEntry) : Bool :=
  match findSwapchain w.swapchains entry.swapchain with
  | none => false
  | some state =>
    state.device = context.handle ∧
      (state.images[entry.imageIndex]?.map SwapchainImage.state) = some .acquired

structure QueuePresentEnv where
  context : Option DeviceContext
  waitSemaphoreCount : Nat
  memory : Bool
  submit : VkResult

/-- A missing list of entries stands for a null info or null arrays in it. The
per-entry results stay unwritten when the call fails before its loop, except
that a failed submit is reported for every entry. -/
def queuePresent (w : World) (info : Option (List PresentEntry)) (env : QueuePresentEnv) :
    VkResult × List VkResult × World :=
  match info with
  | none => (.errorInitializationFailed, [], w)
  | some entries =>
    match env.context with
    | none => (.errorUnknown, [], w)
    | some context =>
      if context.swapchainEnabled = false then (.errorUnknown, [], w)
      else if entries.length ≠ 1 ∧ env.waitSemaphoreCount ≠ 0 then
        if env.memory = false then (.errorOutOfHostMemory, [], w)
        else if entries.all (presentable w context) = false then (.errorUnknown, [], w)
        else if env.submit ≠ .success then
          (env.submit, entries.map (fun _ => env.submit), w)
        else presentAll context entries .success w
      else presentAll context entries .success w

inductive Action where
  | create (device : Nat) (info : Option CreateInfo) (env : CreateEnv)
  | acquire (device : Nat) (handle : Handle) (env : AcquireEnv)
  | present (info : Option (List PresentEntry)) (env : QueuePresentEnv)
  | destroy (device : Nat) (handle : Handle)
  | releaseDevice (device : Nat)

def step (w : World) : Action → World
  | .create device info env => (createSwapchain w device info env).2
  | .acquire device handle env => (acquireNextImage w device handle env).2.2
  | .present info env => (queuePresent w info env).2.2
  | .destroy device handle => destroySwapchain w device handle
  | .releaseDevice device => releaseDevice w device

/-- Whole runs of the adapter; every call is enabled in every state. -/
def run (w : World) (actions : List Action) : Option World :=
  Transition.run (fun s a => some (step s a)) w actions

end Swapchain
