import Libhybris.Swapchain
import Libhybris.Custody

/-!
# Ownership of native buffers in the swapchain

Every window call is read as a custody event on the pair of a window and a
buffer. The invariant lists the pairs the images own and says that they are
distinct and held. An image whose buffer a failed present cancelled owns
nothing, but the cleanup loop cannot tell it from a free image; this is where
a buffer is given back a second time.
-/
namespace Swapchain

open Vulkan Custody List

abbrev Token := Window × Buffer

/-- Only an accepted queue and a cancel give a buffer back. -/
def WindowCall.events : WindowCall → List (Event Token)
  | .dequeued window buffer => [.take (window, buffer)]
  | .queued window buffer _ true => [.use (window, buffer)]
  | .queued window buffer _ false => [.give (window, buffer)]
  | .cancelled window buffer _ => [.give (window, buffer)]
  | .disconnect _ => []
  | .configure .. => []

def events (calls : List WindowCall) : List (Event Token) := calls.flatMap WindowCall.events

@[simp] theorem events_cons (call : WindowCall) (calls : List WindowCall) :
    events (call :: calls) = call.events ++ events calls := rfl

/-- The pair an image owns: nothing once presented or cancelled. -/
def ownedImage (window : Window) (image : SwapchainImage) : List Token :=
  if image.state = .presented ∨ image.cancelled then []
  else image.native.toList.map (fun buffer => (window, buffer))

def ownedImages (window : Window) (images : List SwapchainImage) : List Token :=
  images.flatMap (ownedImage window)

def owned (chains : List SwapchainState) : List Token :=
  chains.flatMap (fun state => ownedImages state.window state.images)

@[simp] theorem ownedImages_nil (window : Window) : ownedImages window [] = [] := rfl

@[simp] theorem ownedImages_cons (window : Window) (image : SwapchainImage)
    (images : List SwapchainImage) :
    ownedImages window (image :: images) = ownedImage window image ++ ownedImages window images :=
  rfl

@[simp] theorem ownedImages_append (window : Window) (xs ys : List SwapchainImage) :
    ownedImages window (xs ++ ys) = ownedImages window xs ++ ownedImages window ys :=
  flatMap_append

@[simp] theorem owned_cons (state : SwapchainState) (chains : List SwapchainState) :
    owned (state :: chains) = ownedImages state.window state.images ++ owned chains := rfl

@[simp] theorem ownedImages_blank (window : Window) (n : Nat) :
    ownedImages window (blankImages n) = [] := by
  induction n with
  | zero => rfl
  | succ n ih =>
    rw [blankImages] at ih
    simp [blankImages, replicate_succ, ih, ownedImage]

/-- Replacing one image exchanges what it owns and keeps the rest. -/
theorem ownedImages_set (window : Window) (images : List SwapchainImage) (i : Nat)
    (image : SwapchainImage) (h : images[i]? = some image) :
    ∃ rest, (ownedImages window images).Perm (ownedImage window image ++ rest) ∧
      ∀ image', (ownedImages window (images.set i image')).Perm
        (ownedImage window image' ++ rest) := by
  induction images generalizing i with
  | nil => simp at h
  | cons first images ih =>
    cases i with
    | zero =>
      have he : first = image := by simpa using h
      exact ⟨ownedImages window images, by simp [he], fun image' => by simp⟩
    | succ i =>
      obtain ⟨rest, hold, hnew⟩ := ih i (by simpa using h)
      refine ⟨ownedImage window first ++ rest, ?_, fun image' => ?_⟩
      · exact (hold.append_left _).trans (perm_append_comm_assoc _ _ _)
      · exact ((hnew image').append_left _).trans (perm_append_comm_assoc _ _ _)

theorem owned_update (chains : List SwapchainState) (handle : Handle) (state : SwapchainState)
    (h : findSwapchain chains handle = some state) :
    ∃ rest, (owned chains).Perm (ownedImages state.window state.images ++ rest) ∧
      ∀ state', (owned (update chains handle state')).Perm
        (ownedImages state'.window state'.images ++ rest) := by
  induction chains with
  | nil => simp [findSwapchain] at h
  | cons first chains ih =>
    by_cases hf : first.handle = handle
    · have he : first = state := by simpa [findSwapchain, hf] using h
      exact ⟨owned chains, by simp [he], fun state' => by simp [update, hf]⟩
    · have hrest : findSwapchain chains handle = some state := by
        simpa [findSwapchain, hf] using h
      obtain ⟨rest, hold, hnew⟩ := ih hrest
      refine ⟨ownedImages first.window first.images ++ rest, ?_, fun state' => ?_⟩
      · exact (hold.append_left _).trans (perm_append_comm_assoc _ _ _)
      · simp only [update, hf, if_false, owned_cons]
        exact ((hnew state').append_left _).trans (perm_append_comm_assoc _ _ _)

variable {chains : List SwapchainState} {handle : Handle} {state state' : SwapchainState} {i : Nat}
  {image image' : SwapchainImage} {calls : List WindowCall} {rest tokens : List Token} {window : Window}
  {buffer : Buffer} {fence : Int} {images : List SwapchainImage} {w : World}

/-- The two exchanges together: one image of one registered swapchain. -/
theorem owned_update_image (hfind : findSwapchain chains handle = some state)
    (hi : state.images[i]? = some image) (hw : state'.window = state.window)
    (him : state'.images = state.images.set i image') :
    ∃ rest, (owned chains).Perm (ownedImage state.window image ++ rest) ∧
      (owned (update chains handle state')).Perm (ownedImage state.window image' ++ rest) := by
  obtain ⟨others, hold, hnew⟩ := owned_update chains handle state hfind
  obtain ⟨rest, hiold, hinew⟩ := ownedImages_set state.window state.images i image hi
  refine ⟨rest ++ others, ?_, ?_⟩
  · simpa using hold.trans (hiold.append_right others)
  · have hs := hnew state'
    rw [hw, him] at hs
    simpa using hs.trans ((hinew image').append_right others)

theorem mem_update {x : SwapchainState} (h : x ∈ update chains handle state) : x = state ∨ x ∈ chains := by
  induction chains with
  | nil => simp [update] at h
  | cons first chains ih =>
    by_cases hf : first.handle = handle
    · simp only [update, hf, if_true, mem_cons] at h
      exact h.imp_right (mem_cons_of_mem first)
    · simp only [update, hf, if_false, mem_cons] at h
      rcases h with h | h
      · exact .inr (h ▸ mem_cons_self)
      · exact (ih h).imp_right (mem_cons_of_mem first)

theorem update_self (h : findSwapchain chains handle = some state) :
    update chains handle state = chains := by
  induction chains with
  | nil => rfl
  | cons first chains ih =>
    by_cases hf : first.handle = handle
    · have he : first = state := by simpa [findSwapchain, hf] using h
      simp [update, hf, he.symm]
    · have hrest : findSwapchain chains handle = some state := by
        simpa [findSwapchain, hf] using h
      simp [update, hf, ih hrest]

theorem mem_of_findSwapchain (h : findSwapchain chains handle = some state) : state ∈ chains :=
  mem_of_find?_eq_some h

/-- If the windows were honest, the calls so far are permitted and the tokens
are distinct and held. -/
def Custodial (calls : List WindowCall) (tokens : List Token) : Prop :=
  Honest (events calls) → Owns (events calls) tokens

theorem Custodial.perm {tokens' : List Token} (h : Custodial calls tokens)
    (hp : tokens.Perm tokens') : Custodial calls tokens' :=
  fun hh => (h hh).perm hp

theorem Custodial.forget {tokens' : List Token} (h : Custodial calls tokens)
    (hs : tokens'.Sublist tokens) : Custodial calls tokens' :=
  fun hh => (h hh).forget hs

theorem Custodial.disconnect (window : Window) (h : Custodial calls tokens) :
    Custodial (.disconnect window :: calls) tokens := h

theorem Custodial.dequeued (h : Custodial calls tokens) :
    Custodial (.dequeued window buffer :: calls) ((window, buffer) :: tokens) :=
  fun hh => (h hh.tail).take hh

section
variable (h : Custodial calls ((window, buffer) :: tokens))
include h

theorem Custodial.accepted : Custodial (.queued window buffer fence false :: calls) tokens :=
  fun hh => (h hh.tail).give

theorem Custodial.rejected :
    Custodial (.queued window buffer fence true :: calls) ((window, buffer) :: tokens) :=
  fun hh => (h hh.tail).use mem_cons_self

theorem Custodial.cancelled : Custodial (.cancelled window buffer fence :: calls) tokens :=
  fun hh => (h hh.tail).give

end

/-- A swapchain the cleanup loop can tell apart: retired, so that it cancels
nothing, or without an image whose buffer a present already cancelled. -/
def Disposable (state : SwapchainState) : Prop :=
  state.retired = true ∨ ∀ image ∈ state.images, image.cancelled = false

theorem destroyImages_retired (window : Window) (images : List SwapchainImage)
    (calls : List WindowCall) : destroyImages window true images calls = calls := by
  induction images generalizing calls with
  | nil => rfl
  | cons image images ih => cases hn : image.native <;> simp [destroyImages, hn, ih]

/-- Over images none of which was cancelled, the cleanup loop gives back
exactly what they own. -/
theorem Custodial.cleanup (hc : ∀ image ∈ images, image.cancelled = false)
    (h : Custodial calls (ownedImages window images ++ rest)) :
    Custodial (destroyImages window false images calls) rest := by
  induction images generalizing calls with
  | nil => exact h
  | cons image images ih =>
    have himage : image.cancelled = false := hc image mem_cons_self
    have hrest : ∀ image ∈ images, image.cancelled = false :=
      fun x hx => hc x (mem_cons_of_mem image hx)
    apply ih hrest
    cases hn : image.native with
    | none => simpa [ownedImage, hn] using h
    | some buffer =>
      by_cases hs : image.state = .presented
      · simpa [ownedImage, hs] using h
      · simp only [ownedImages_cons, ownedImage, hs, himage, hn] at h
        simpa [hs] using Custodial.cancelled (by simpa using h)

theorem Custodial.dispose (hd : Disposable state)
    (h : Custodial calls (ownedImages state.window state.images ++ rest)) :
    Custodial (destroyImages state.window state.retired state.images calls) rest := by
  cases hr : state.retired with
  | true =>
    rw [destroyImages_retired]
    exact h.forget (sublist_append_right _ _)
  | false =>
    have hc : ∀ image ∈ state.images, image.cancelled = false := by
      rcases hd with hd | hd
      · simp [hr] at hd
      · exact hd
    exact h.cleanup hc

/-- What every registered swapchain keeps: each image has its buffer, a
cancelled image is free in a chain whose status is fatal for good, and the
stored status is never a size mismatch. -/
structure Sound (state : SwapchainState) : Prop where
  native : ∀ image ∈ state.images, image.native.isSome
  cancelled : ∀ image ∈ state.images, image.cancelled = true →
    image.state = .free ∧ state.presentationStatus ≠ .success
  status : state.presentationStatus ≠ .suboptimal

structure Inv (w : World) : Prop where
  sound : ∀ state ∈ w.swapchains, Sound state
  custodial : Custodial w.calls (owned w.swapchains)

theorem inv_empty : Inv {} :=
  ⟨fun state h => by simp at h, fun _ => owns_nil⟩

/-- A fatal status replaces the stored one and is kept; any other leaves the
state as it was. -/
theorem presentationStatus_cases (r : ExtentResult) (h : state.presentationStatus ≠ .suboptimal) :
    (¬((presentationStatus state r).1 ≠ .success ∧ (presentationStatus state r).1 ≠ .suboptimal) ∧
      (presentationStatus state r).2 = state ∧ state.presentationStatus = .success) ∨
    ((presentationStatus state r).1 ≠ .success ∧ (presentationStatus state r).1 ≠ .suboptimal ∧
      (presentationStatus state r).2 =
        { state with presentationStatus := (presentationStatus state r).1 }) := by
  by_cases hs : state.presentationStatus = .success
  · by_cases he : r.error = 0
    · simp only [presentationStatus, hs, he, ne_eq, not_true_eq_false, if_false]
      split <;> simp
    · simp [presentationStatus, hs, he]
  · simp [presentationStatus, hs, h]

/-- Replacing one image keeps a sound state sound. -/
theorem Sound.set (h : Sound state) (him : state'.images = state.images.set i image')
    (hn : image'.native.isSome) (hc : image'.cancelled = true →
      image'.state = .free ∧ state'.presentationStatus ≠ .success)
    (hkeep : state.presentationStatus ≠ .success → state'.presentationStatus ≠ .success)
    (hst : state'.presentationStatus ≠ .suboptimal) : Sound state' := by
  refine ⟨fun x hx => ?_, fun x hx hxc => ?_, hst⟩
  · rw [him] at hx
    rcases mem_or_eq_of_mem_set hx with hx | rfl
    · exact h.native x hx
    · exact hn
  · rw [him] at hx
    rcases mem_or_eq_of_mem_set hx with hx | rfl
    · exact (h.cancelled x hx hxc).imp_right hkeep
    · exact hc hxc

theorem Sound.setStatus {status : VkResult} (h : Sound state) (hs : status ≠ .success)
    (hsub : status ≠ .suboptimal) : Sound { state with presentationStatus := status } :=
  ⟨h.native, fun x hx hxc => ⟨(h.cancelled x hx hxc).1, hs⟩, hsub⟩

theorem sound_update (hall : ∀ x ∈ chains, Sound x) (h : Sound state) :
    ∀ x ∈ update chains handle state, Sound x := by
  intro x hx
  rcases mem_update hx with rfl | hx
  · exact h
  · exact hall x hx

/-- Writing a state with the same window and images moves no buffer. -/
theorem Inv.touch (h : Inv w) (hfind : findSwapchain w.swapchains handle = some state)
    (hs : Sound state') (hw : state'.window = state.window) (him : state'.images = state.images) :
    Inv ⟨update w.swapchains handle state', w.calls⟩ := by
  obtain ⟨rest, hold, hnew⟩ := owned_update w.swapchains handle state hfind
  refine ⟨sound_update h.sound hs, h.custodial.perm (hold.trans ?_)⟩
  have hn := (hnew state').symm
  rwa [hw, him] at hn

/-- An image that is out with the application owns its buffer. -/
theorem ownedImage_acquired (hs : Sound state) (hi : state.images[i]? = some image)
    (ha : image.state = .acquired) :
    ∃ buffer, image.native = some buffer ∧ ownedImage state.window image = [(state.window, buffer)] := by
  have hm : image ∈ state.images := mem_of_getElem? hi
  obtain ⟨buffer, hb⟩ := Option.isSome_iff_exists.mp (hs.native image hm)
  have hc : image.cancelled = false := by
    by_contra hc
    have hf := (hs.cancelled image hm (by simpa using hc)).1
    simp [ha] at hf
  exact ⟨buffer, hb, by simp [ownedImage, ha, hc, hb]⟩

/-- What one present can do: nothing, or one of its three ways of giving the
acquired buffer back. -/
theorem presentOne_cases (w : World) (context : DeviceContext) (handle : Handle) (index : Nat)
    (env : PresentEnv) (hall : ∀ state ∈ w.swapchains, Sound state) :
    (presentOne w context handle index env).2 = w ∨
    ∃ state image, findSwapchain w.swapchains handle = some state ∧
      state.images[index]? = some image ∧ image.state = .acquired ∧
      ((∃ status fence, status ≠ .success ∧ status ≠ .suboptimal ∧
          (presentOne w context handle index env).2 =
            ⟨update w.swapchains handle
                { state with
                  presentationStatus := status
                  images := state.images.set index { image with state := .free, cancelled := true } },
              .cancelled state.window (image.native.getD 0) fence :: w.calls⟩) ∨
        (∃ fence, (presentOne w context handle index env).2 =
            ⟨update w.swapchains handle
                { state with
                  presentationStatus := .errorSurfaceLost
                  images := state.images.set index { image with state := .free, cancelled := true } },
              .cancelled state.window (image.native.getD 0) (-1) ::
                .queued state.window (image.native.getD 0) fence true :: w.calls⟩) ∨
        (∃ fence, (presentOne w context handle index env).2 =
            ⟨update w.swapchains handle
                { state with
                  images := state.images.set index { image with state := .presented } },
              .queued state.window (image.native.getD 0) fence false :: w.calls⟩)) := by
  unfold presentOne
  cases hfind : findSwapchain w.swapchains handle with
  | none => exact .inl rfl
  | some state =>
    simp only
    split
    · exact .inl rfl
    cases hi : state.images[index]? with
    | none => exact .inl rfl
    | some image =>
      simp only
      split
      · exact .inl rfl
      rename_i hacq
      cases env.release with
      | none => exact .inl rfl
      | some release =>
        obtain ⟨released, fence⟩ := release
        simp only
        split
        · exact .inl rfl
        right
        refine ⟨state, image, rfl, hi, by simpa using hacq, ?_⟩
        have hsub := (hall state (mem_of_findSwapchain hfind)).status
        rcases presentationStatus_cases env.extent hsub with ⟨hgo, hsame, -⟩ | ⟨h1, h2, hst⟩
        · rw [if_neg hgo, hsame]
          by_cases hq : env.queueError = 0
          · exact .inr (.inr ⟨fence, by simp [hq]⟩)
          · exact .inr (.inl ⟨fence, by simp [hq]⟩)
        · refine .inl ⟨_, fence, h1, h2, ?_⟩
          rw [if_pos ⟨h1, h2⟩, hst]

/-- The rule for a step on one image: it is enough to account for the window
calls made in exchange for what the image owned before and owns after. -/
theorem Inv.exchange (h : Inv w) (hfind : findSwapchain w.swapchains handle = some state)
    (hi : state.images[i]? = some image) (hw : state'.window = state.window)
    (him : state'.images = state.images.set i image') (hs : Sound state')
    (hmove : ∀ rest, Custodial w.calls (ownedImage state.window image ++ rest) →
      Custodial calls (ownedImage state.window image' ++ rest)) :
    Inv ⟨update w.swapchains handle state', calls⟩ := by
  obtain ⟨rest, hold, hnew⟩ := owned_update_image hfind hi hw him
  exact ⟨sound_update h.sound hs, (hmove rest (h.custodial.perm hold)).perm hnew.symm⟩

theorem Inv.presentOne (h : Inv w) (context : DeviceContext) (handle : Handle) (index : Nat)
    (env : PresentEnv) : Inv (presentOne w context handle index env).2 := by
  rcases presentOne_cases w context handle index env h.sound with
    he | ⟨state, image, hfind, hi, hacq, hway⟩
  · rwa [he]
  have hs : Sound state := h.sound state (mem_of_findSwapchain hfind)
  obtain ⟨buffer, hb, hown⟩ := ownedImage_acquired hs hi hacq
  have hn : image.native.isSome := by simp [hb]
  rcases hway with ⟨status, fence, h1, h2, he⟩ | ⟨fence, he⟩ | ⟨fence, he⟩
  · rw [he]
    refine h.exchange hfind hi rfl rfl
      (hs.set rfl hn (fun _ => ⟨rfl, h1⟩) (fun _ => h1) h2) fun rest hc => ?_
    rw [hown] at hc
    simpa [ownedImage, hb] using hc.cancelled
  · rw [he]
    refine h.exchange hfind hi rfl rfl
      (hs.set rfl hn (fun _ => ⟨rfl, by simp⟩) (fun _ => by simp) (by simp)) fun rest hc => ?_
    rw [hown] at hc
    simpa [ownedImage, hb] using hc.rejected.cancelled
  · rw [he]
    have hnc : image.cancelled ≠ true := by
      intro hc
      have hf := (hs.cancelled image (mem_of_getElem? hi) hc).1
      simp [hacq] at hf
    refine h.exchange hfind hi rfl rfl
      (hs.set rfl hn (fun hc => absurd hc hnc) (fun hne => hne) hs.status) fun rest hc => ?_
    rw [hown] at hc
    simpa [ownedImage, hb] using hc.accepted

theorem Inv.presentAll (h : Inv w) (context : DeviceContext) (entries : List PresentEntry)
    (worst : VkResult) : Inv (presentAll context entries worst w).2.2 := by
  induction entries generalizing w worst with
  | nil => exact h
  | cons entry rest ih => exact ih (h.presentOne context entry.swapchain entry.imageIndex entry.env) _

theorem Inv.queuePresent (h : Inv w) (info : Option (List PresentEntry)) (env : QueuePresentEnv) :
    Inv (queuePresent w info env).2.2 := by
  unfold Swapchain.queuePresent
  cases info with
  | none => exact h
  | some entries =>
    cases env.context with
    | none => exact h
    | some context =>
      simp only
      repeat' split
      all_goals first | exact h | exact h.presentAll context entries .success

/-- The image an acquire hands out differs from the stored one in its fence
and in a state other than presented only. -/
structure Handed (image image' : SwapchainImage) : Prop where
  native : image'.native = image.native
  cancelled : image'.cancelled = image.cancelled
  state : image'.state ≠ .presented

theorem acquireSlot_cases (state : SwapchainState) (r : DequeueResult) (calls : List WindowCall) :
    (∃ i image image' fence calls', state.images[i]? = some image ∧ Handed image image' ∧
      acquireSlot state r calls = (.ok (i, fence),
        { state with images := state.images.set i image' }, calls') ∧
      (image.state = .free ∧ calls' = calls ∨
        ∃ buffer, image.native = some buffer ∧ calls' = .dequeued state.window buffer :: calls)) ∨
    (∃ result, acquireSlot state r calls = (.error result, state, calls)) ∨
    (acquireSlot state r calls = (.error .errorOutOfDate,
      { state with presentationStatus := .errorOutOfDate }, calls)) ∨
    (∃ buffer, acquireSlot state r calls = (.error .errorUnknown, state,
      .cancelled state.window buffer r.fence :: .dequeued state.window buffer :: calls)) := by
  unfold acquireSlot
  cases hfree : state.images.findIdx? (fun image => image.state = .free) with
  | some i =>
    obtain ⟨hlt, hst, -⟩ := findIdx?_eq_some_iff_getElem.mp hfree
    have hst : state.images[i].state = .free := by simpa using hst
    exact .inl ⟨i, state.images[i], { state.images[i] with acquireFence := -1 },
      state.images[i].acquireFence, calls,
      getElem?_eq_getElem hlt, ⟨rfl, rfl, by simp [hst]⟩, by simp [getElem?_eq_getElem hlt],
        .inl ⟨hst, rfl⟩⟩
  | none =>
    by_cases h1 : r.error = -estale
    · exact .inr (.inr (.inl (by simp [h1])))
    by_cases h2 : r.error = -eagain
    · exact .inr (.inl ⟨.notReady, by simp [h2, estale, eagain]⟩)
    by_cases h3 : r.error = -etimedout
    · exact .inr (.inl ⟨.timeout, by simp [h3, estale, eagain, etimedout]⟩)
    simp only [h1, h2, h3, if_false]
    by_cases he : r.error = 0
    · cases hb : r.buffer with
      | none => exact .inr (.inl ⟨.errorUnknown, by simp [he]⟩)
      | some buffer =>
        cases hn : state.images.findIdx? (fun image => image.native = some buffer) with
        | none => exact .inr (.inr (.inr ⟨buffer, by simp [he, hn]⟩))
        | some i =>
          obtain ⟨hlt, hst, -⟩ := findIdx?_eq_some_iff_getElem.mp hn
          exact .inl ⟨i, state.images[i], { state.images[i] with state := .free }, r.fence, _,
            getElem?_eq_getElem hlt, ⟨rfl, rfl, by simp⟩, by simp [he, hn, getElem?_eq_getElem hlt],
            .inr ⟨buffer, by simpa using hst, rfl⟩⟩
    · exact .inr (.inl ⟨.errorUnknown, by simp [he]⟩)

/-- What the driver's part of an acquire makes of the chosen slot. -/
theorem acquire_finish (hi : state.images[i]? = some image) (hh : Handed image image') :
    ∃ image'', Handed image image'' ∧
      (state.images.set i image').set i
        { ((state.images.set i image')[i]?.getD {}) with state := .acquired } =
        state.images.set i image'' := by
  obtain ⟨hlt, -⟩ := List.getElem?_eq_some_iff.mp hi
  refine ⟨{ image' with state := .acquired }, ⟨hh.native, hh.cancelled, by simp⟩, ?_⟩
  simp [hlt]

theorem acquireNextImage_cases (w : World) (device : Nat) (handle : Handle) (env : AcquireEnv)
    (hall : ∀ state ∈ w.swapchains, Sound state) :
    (acquireNextImage w device handle env).2.2 = w ∨
    ∃ state, findSwapchain w.swapchains handle = some state ∧
      ((∃ status, status ≠ .success ∧ status ≠ .suboptimal ∧
          (acquireNextImage w device handle env).2.2 =
            ⟨update w.swapchains handle { state with presentationStatus := status }, w.calls⟩) ∨
        (state.presentationStatus = .success ∧ ∃ i image image' calls, state.images[i]? = some image ∧
          Handed image image' ∧ (acquireNextImage w device handle env).2.2 =
            ⟨update w.swapchains handle { state with images := state.images.set i image' }, calls⟩ ∧
          (image.state = .free ∧ calls = w.calls ∨
            ∃ buffer, image.native = some buffer ∧ calls = .dequeued state.window buffer :: w.calls)) ∨
        (∃ buffer fence, (acquireNextImage w device handle env).2.2 =
          ⟨w.swapchains, .cancelled state.window buffer fence ::
            .dequeued state.window buffer :: w.calls⟩)) := by
  unfold acquireNextImage
  cases env.context with
  | none => exact .inl rfl
  | some context =>
    simp only
    split
    · exact .inl rfl
    cases hfind : findSwapchain w.swapchains handle with
    | none => exact .inl rfl
    | some state =>
      simp only
      split
      · exact .inl rfl
      have hsub := (hall state (mem_of_findSwapchain hfind)).status
      rcases presentationStatus_cases env.extent hsub with ⟨hgo, hsame, hsuc⟩ | ⟨h1, h2, hst⟩
      · rw [if_neg hgo, hsame]
        rcases acquireSlot_cases state env.dequeue w.calls with
          ⟨i, image, image', fence, calls, hi, hh, he, hway⟩ | ⟨result, he⟩ | he | ⟨buffer, he⟩
        · right
          obtain ⟨image'', hh'', hset⟩ := acquire_finish hi hh
          refine ⟨state, rfl, .inr (.inl ⟨hsuc, i, image, ?_⟩)⟩
          rw [he]
          cases env.acquire with
          | none => exact ⟨_, _, hi, hh, rfl, hway⟩
          | some result =>
            by_cases hr : result = .success
            · exact ⟨image'', _, hi, hh'', by simp only [hr]; simp [hset], hway⟩
            · exact ⟨_, _, hi, hh, by simp [hr], hway⟩
        · exact .inl (by simp [he, update_self hfind])
        · exact .inr ⟨state, rfl, .inl ⟨.errorOutOfDate, by simp, by simp, by simp [he]⟩⟩
        · exact .inr ⟨state, rfl, .inr (.inr ⟨buffer, env.dequeue.fence,
            by simp [he, update_self hfind]⟩)⟩
      · exact .inr ⟨state, rfl, .inl ⟨_, h1, h2, by rw [if_pos ⟨h1, h2⟩, hst]⟩⟩

theorem Inv.acquireNextImage (h : Inv w) (device : Nat) (handle : Handle) (env : AcquireEnv) :
    Inv (acquireNextImage w device handle env).2.2 := by
  rcases acquireNextImage_cases w device handle env h.sound with he | ⟨state, hfind, hway⟩
  · rwa [he]
  have hs : Sound state := h.sound state (mem_of_findSwapchain hfind)
  rcases hway with ⟨status, h1, h2, he⟩ | ⟨hsuc, i, image, image', calls, hi, hh, he, hway⟩ |
    ⟨buffer, fence, he⟩
  · rw [he]
    exact h.touch hfind (hs.setStatus h1 h2) rfl rfl
  · have hm : image ∈ state.images := mem_of_getElem? hi
    have hc : image.cancelled = false := by
      by_contra hc
      exact (hs.cancelled image hm (by simpa using hc)).2 hsuc
    have hc' : image'.cancelled = false := hh.cancelled.trans hc
    have hs' : Sound { state with images := state.images.set i image' } :=
      hs.set rfl (by rw [hh.native]; exact hs.native image hm) (fun hx => by simp [hc'] at hx)
        (fun hne => hne) hs.status
    rw [he]
    refine h.exchange hfind hi rfl rfl hs' fun rest hcust => ?_
    rcases hway with ⟨hf, rfl⟩ | ⟨buffer, hb, rfl⟩
    · simpa [ownedImage, hf, hc, hc', hh.native, hh.state] using hcust
    · have hown : ownedImage state.window image' = [(state.window, buffer)] := by
        simp [ownedImage, hh.state, hc', hh.native, hb]
      rw [hown]
      intro hhon
      have hnot := (hcust hhon.tail).not_mem_of_honest hhon
      have hpres : image.state = .presented := by
        by_contra hp
        simp [ownedImage, hp, hc, hb] at hnot
      have hcust' : Custodial w.calls rest := by simpa [ownedImage, hpres] using hcust
      exact hcust'.dequeued hhon
  · rw [he]
    exact ⟨h.sound, h.custodial.dequeued.cancelled⟩

/-- A pool whose images all have their buffer and were never presented. -/
def Filled (images : List SwapchainImage) : Prop :=
  ∀ image ∈ images, image.native.isSome ∧ image.cancelled = false

/-- An image as the creation loop fills it. -/
structure Taken (buffer : Buffer) (image : SwapchainImage) : Prop where
  native : image.native = some buffer
  state : image.state = .free
  cancelled : image.cancelled = false

theorem Filled.append_taken (h : Filled images) (ht : Taken buffer image) : Filled (images ++ [image]) := by
  intro x hx
  rcases mem_append.mp hx with hx | hx
  · exact h x hx
  · rw [mem_singleton.mp hx]
    exact ⟨by simp [ht.native], ht.cancelled⟩

/-- Filling the first blank image of a partly filled pool. -/
theorem set_blank (filled : List SwapchainImage) (n : Nat) (image : SwapchainImage) :
    (filled ++ blankImages (n + 1)).set filled.length image =
      (filled ++ [image]) ++ blankImages n := by
  simp [blankImages, replicate_succ]

theorem Custodial.taken (h : Custodial calls (ownedImages window images ++ rest))
    (ht : Taken buffer image) :
    Custodial (.dequeued window buffer :: calls) (ownedImages window (images ++ [image]) ++ rest) := by
  have hmid : ((window, buffer) :: (ownedImages window images ++ rest)).Perm
      (ownedImages window images ++ (window, buffer) :: rest) := perm_middle.symm
  refine h.dequeued.perm ?_
  simpa [ownedImage, ht.native, ht.state, ht.cancelled] using hmid

/-- The cleanup loop over a partly filled pool gives back the filled part. -/
theorem Custodial.abandon (n : Nat) (hf : Filled images)
    (h : Custodial calls (ownedImages window images ++ rest)) :
    Custodial (destroyImages window false (images ++ blankImages n) calls) rest := by
  refine Custodial.cleanup (fun image hm => ?_) (by simpa using h)
  rcases mem_append.mp hm with hm | hm
  · exact (hf image hm).2
  · simp [eq_of_mem_replicate hm]

/-- What a creation loop must establish, failed or not. -/
def CreatedImages (window : Window) (rest : List Token) :
    Except VkResult (List SwapchainImage) × List WindowCall → Prop
  | (.error _, calls) => Custodial calls rest
  | (.ok images, calls) => Custodial calls (ownedImages window images ++ rest) ∧ Filled images

/-- The creation loop from the first blank image on: a failure gives back all
it dequeued, success leaves the whole pool owned. -/
theorem createImages_spec (env : CreateEnv) (state : SwapchainState) (hr : state.retired = false)
    (n : Nat) (filled : List SwapchainImage) (calls : List WindowCall) (rest : List Token)
    (hf : Filled filled) (h : Custodial calls (ownedImages state.window filled ++ rest)) :
    CreatedImages state.window rest
      (createImages env state n filled.length (filled ++ blankImages n) calls) := by
  induction n generalizing filled calls with
  | zero =>
    have hz : createImages env state 0 filled.length (filled ++ blankImages 0) calls =
        (.ok filled, calls) := by simp [createImages, blankImages]
    rw [hz]
    exact ⟨h, hf⟩
  | succ n ih =>
    unfold createImages
    simp only [hr]
    split
    · rename_i buffer _ _
      simp only [set_blank]
      have htaken : ∀ image, Taken buffer image →
          Custodial (.dequeued state.window buffer :: calls)
            (ownedImages state.window (filled ++ [image]) ++ rest) :=
        fun image ht => h.taken ht
      split_ifs
      · exact (htaken _ ⟨rfl, rfl, rfl⟩).abandon n (hf.append_taken ⟨rfl, rfl, rfl⟩)
      · exact (htaken _ ⟨rfl, rfl, rfl⟩).abandon n (hf.append_taken ⟨rfl, rfl, rfl⟩)
      · have hnext := fun image (ht : Taken buffer image) =>
          ih (filled ++ [image]) _ (hf.append_taken ht) (htaken image ht)
        simp only [length_append, length_singleton] at hnext
        exact hnext _ ⟨rfl, rfl, rfl⟩
    · exact h.abandon (n + 1) hf

theorem Filled.sound (h : Filled state.images) (hs : state.presentationStatus = .success) :
    Sound state := by
  refine ⟨fun image hm => (h image hm).1, fun image hm hc => ?_, by simp [hs]⟩
  simp [(h image hm).2] at hc

theorem filled_nil : Filled [] := fun image hm => by simp at hm

theorem Inv.createPool (h : Inv w) (device : Nat) (context : DeviceContext) (info : CreateInfo)
    (env : CreateEnv) (window : Window) (pixel : Nat) :
    Inv (createPool w device context info env window pixel).2 := by
  unfold Swapchain.createPool
  cases env.stateMemory with
  | none => exact h
  | some handle =>
    simp only
    split_ifs with hmem hconf
    · exact h
    · have hstart : Custodial
          (.configure window info.imageExtent pixel info.minImageCount env.configureFailed ::
            .disconnect window :: w.calls)
          (ownedImages window [] ++ owned w.swapchains) := h.custodial
      exact ⟨h.sound, (hstart.abandon info.minImageCount filled_nil).disconnect window⟩
    · have hspec : CreatedImages window (owned w.swapchains)
          (createImages env (newState handle device context info window) info.minImageCount 0
            (blankImages info.minImageCount)
            (.configure window info.imageExtent pixel info.minImageCount env.configureFailed ::
              .disconnect window :: w.calls)) :=
        createImages_spec env (newState handle device context info window) rfl
          info.minImageCount [] _ _ filled_nil h.custodial
      revert hspec
      generalize createImages env _ info.minImageCount 0 _ _ = result
      intro hspec
      obtain ⟨error | images, calls⟩ := result
      · exact ⟨h.sound, hspec⟩
      · refine ⟨fun x hx => ?_, hspec.1⟩
        rcases mem_cons.mp hx with rfl | hx
        · exact Filled.sound hspec.2 rfl
        · exact h.sound x hx

theorem Inv.retireSwapchain (h : Inv w) (handle : Handle) : Inv (retireSwapchain w handle) := by
  unfold Swapchain.retireSwapchain
  cases hfind : findSwapchain w.swapchains handle with
  | none => exact h
  | some state =>
    have hs : Sound state := h.sound state (mem_of_findSwapchain hfind)
    have hretired : Sound { state with retired := true } := ⟨hs.native, hs.cancelled, hs.status⟩
    have ht := h.touch hfind hretired rfl rfl
    exact ⟨ht.sound, ht.custodial.disconnect state.window⟩

theorem Inv.createSwapchain (h : Inv w) (device : Nat) (info : Option CreateInfo)
    (env : CreateEnv) : Inv (createSwapchain w device info env).2 := by
  unfold Swapchain.createSwapchain
  cases info with
  | none => exact h
  | some info =>
    simp only
    split
    · exact h
    cases env.context with
    | none => exact h
    | some context =>
      simp only
      split
      · exact h
      have hr : Inv (if info.oldSwapchain ≠ 0 then Swapchain.retireSwapchain w info.oldSwapchain
          else w) := by
        split
        · exact h.retireSwapchain info.oldSwapchain
        · exact h
      split
      · exact hr
      · exact hr.createPool device context info env _ _

/-- Unlinking hands over one swapchain and keeps the others. -/
theorem unlinkSwapchain_some {device : Nat} {rest : List SwapchainState}
    (h : unlinkSwapchain device handle chains = some (state, rest)) :
    findSwapchain chains handle = some state ∧ state.device = device ∧ chains.Perm (state :: rest) := by
  induction chains generalizing rest with
  | nil => simp [unlinkSwapchain] at h
  | cons first chains ih =>
    by_cases hf : first.handle = handle
    · by_cases hd : first.device = device
      · simp only [unlinkSwapchain, hf, hd, if_true, Option.some.injEq, Prod.mk.injEq] at h
        obtain ⟨rfl, rfl⟩ := h
        exact ⟨by simp [findSwapchain, hf], hd, .refl _⟩
      · simp [unlinkSwapchain, hf, hd] at h
    · simp only [unlinkSwapchain, hf, if_false, Option.map_eq_some_iff, Prod.mk.injEq] at h
      obtain ⟨⟨found, others⟩, hu, rfl, rfl⟩ := h
      obtain ⟨hfind, hd, hp⟩ := ih hu
      refine ⟨by simpa [findSwapchain, hf] using hfind, hd, ?_⟩
      exact (hp.cons first).trans (List.Perm.swap _ _ _)

theorem owned_perm {chains' : List SwapchainState} (h : chains.Perm chains') :
    (owned chains).Perm (owned chains') := h.flatMap_right _

theorem Inv.destroySwapchain (h : Inv w) (device : Nat) (handle : Handle)
    (hd : ∀ state, findSwapchain w.swapchains handle = some state → state.device = device →
      Disposable state) : Inv (destroySwapchain w device handle) := by
  unfold Swapchain.destroySwapchain
  split
  · exact h
  cases hu : unlinkSwapchain device handle w.swapchains with
  | none => exact h
  | some found =>
    obtain ⟨state, rest⟩ := found
    obtain ⟨hfind, hdev, hp⟩ := unlinkSwapchain_some hu
    have hsound : ∀ x ∈ rest, Sound x :=
      fun x hx => h.sound x (hp.mem_iff.mpr (mem_cons_of_mem state hx))
    have hc : Custodial (destroyImages state.window state.retired state.images w.calls)
        (owned rest) :=
      Custodial.dispose (hd state hfind hdev) (h.custodial.perm (owned_perm hp))
    refine ⟨hsound, ?_⟩
    cases hr : state.retired with
    | true => simpa [hr] using hc
    | false => simpa [hr] using hc.disconnect state.window

/-- Cleaning up a list of swapchains one after the other. -/
theorem Custodial.dispose_all {orphans : List SwapchainState}
    (hd : ∀ state ∈ orphans, Disposable state) (h : Custodial calls (owned orphans ++ rest)) :
    Custodial (orphans.foldl (fun calls state =>
      destroyImages state.window state.retired state.images calls) calls) rest := by
  induction orphans generalizing calls with
  | nil => exact h
  | cons state orphans ih =>
    refine ih (fun x hx => hd x (mem_cons_of_mem state hx)) ?_
    exact Custodial.dispose (hd state mem_cons_self) (by simpa using h)

theorem Inv.releaseDevice (h : Inv w) (device : Nat)
    (hd : ∀ state ∈ w.swapchains, state.device = device → Disposable state) :
    Inv (releaseDevice w device) := by
  refine ⟨fun state hm => h.sound state (mem_of_mem_filter hm), ?_⟩
  refine Custodial.dispose_all (fun state hm => ?_) (h.custodial.perm ?_)
  · have hf := mem_filter.mp (mem_reverse.mp hm)
    exact hd state hf.1 (by simpa using hf.2)
  · have hsplit := filter_append_perm (fun state => decide (state.device = device))
      w.swapchains
    have hrev := (reverse_perm
      (w.swapchains.filter (fun state => decide (state.device = device)))).append_right
        (w.swapchains.filter (fun state => !decide (state.device = device)))
    have hall := owned_perm (hrev.trans hsplit).symm
    simpa [Swapchain.releaseDevice, owned, flatMap_append] using hall

/-- No swapchain is destroyed, by itself or with its device, that is not
retired and has an image whose buffer a failed present cancelled. -/
def DestroysDisposable (w : World) : Action → Prop
  | .destroy device handle => ∀ state, findSwapchain w.swapchains handle = some state →
      state.device = device → Disposable state
  | .releaseDevice device => ∀ state ∈ w.swapchains, state.device = device → Disposable state
  | _ => True

theorem Inv.step (h : Inv w) (a : Action) (hd : DestroysDisposable w a) : Inv (step w a) := by
  cases a with
  | create device info env => exact h.createSwapchain device info env
  | acquire device handle env => exact h.acquireNextImage device handle env
  | present info env => exact h.queuePresent info env
  | destroy device handle => exact h.destroySwapchain device handle hd
  | releaseDevice device => exact h.releaseDevice device hd

/-- In every run that destroys disposable swapchains only, over windows that
never hand out a buffer still held, each queue and each cancel is made on a
buffer that was dequeued from that window and not given back since. -/
theorem buffers_given_back_once (actions : List Action) (u : World)
    (hd : Transition.Along (fun s a => some (step s a)) DestroysDisposable {} actions)
    (hrun : run {} actions = some u) (hh : Honest (events u.calls)) :
    (ledger (events u.calls)).isSome := by
  have hstep : ∀ s a t, Inv s → DestroysDisposable s a → some (step s a) = some t → Inv t := by
    intro s a t hs hok ht
    have he : step s a = t := by simpa using ht
    exact he ▸ hs.step a hok
  have hinv : Inv u := Transition.run_invariant_along hstep actions {} u inv_empty hd hrun
  exact (hinv.custodial hh).isSome

section Traces

def sampleContext : DeviceContext := ⟨1, 1, 1, true⟩

/-- Two images over window 9, whose buffers are 1 and 2. -/
def sampleCreate : Action :=
  .create 1
    (some { surface := 7, minImageCount := 2, imageFormat := 37, imageExtent := (4, 4),
            imageUsage := 16, compositeAlpha := 1, presentMode := 2 })
    { context := some sampleContext, surfaceWindow := some ⟨9, 1⟩, headless := false,
      capabilities := .success, supportedUsageFlags := 16, supportedCompositeAlpha := 1,
      imageProperties := .success, maxExtent := (64, 64), usage2 := some .success,
      usageBits := 0, stateMemory := some 100, imagesMemory := true, configureFailed := false,
      dequeue := fun i => ⟨0, some (i + 1), -1⟩, importImage := fun _ => (.success, 5),
      createSemaphore := fun _ => (.success, 6) }

def sampleAcquire : Action :=
  .acquire 1 100 ⟨some sampleContext, ⟨0, 4, 4⟩, ⟨0, none, -1⟩, some .success⟩

/-- Present image 0 with the given results of the extent query and the queue. -/
def samplePresent (extentError queueError : Int) : Action :=
  .present (some [⟨100, 0, ⟨some (.success, -1), ⟨extentError, 4, 4⟩, queueError⟩⟩])
    ⟨some sampleContext, 0, true, .success⟩

def sampleActions (extentError queueError : Int) : List Action :=
  [sampleCreate, sampleAcquire, samplePresent extentError queueError, .destroy 1 100]

theorem buffers_given_back_once_presented :
    ∃ u, run {} (sampleActions 0 0) = some u ∧ (ledger (events u.calls)).isSome := by
  refine ⟨_, rfl, buffers_given_back_once (sampleActions 0 0) _ ?_ rfl (by decide)⟩
  refine ⟨trivial, fun _ h1 => ?_⟩
  cases h1
  refine ⟨trivial, fun _ h2 => ?_⟩
  cases h2
  refine ⟨trivial, fun _ h3 => ?_⟩
  cases h3
  refine ⟨fun state hs _ => ?_, fun _ _ => trivial⟩
  cases hs
  exact .inr (by decide)

/-- A lost surface and a rejected queue each end in the same buffer being
cancelled twice, although the window is honest. -/
theorem cancelled_buffer_given_back_twice :
    (∃ u, run {} (sampleActions (-1) 0) = some u ∧ Honest (events u.calls) ∧
      ledger (events u.calls) = none) ∧
    (∃ u, run {} (sampleActions 0 (-1)) = some u ∧ Honest (events u.calls) ∧
      ledger (events u.calls) = none) :=
  ⟨⟨_, rfl, by decide, by decide⟩, ⟨_, rfl, by decide, by decide⟩⟩

end Traces

end Swapchain
