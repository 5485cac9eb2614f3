import PagedIndex.Proofs.Image.Untrusted
import PagedIndex.Proofs.Standing

/-!
# Pagers over images from anywhere

A pager over any bytes whatever answers or fails, however often and in whichever order it is called
(`Pager.withstands`). It hands out a page only under the name that was asked for, and cannot be started with a
descriptor or a filter that does not read.
-/

namespace PagedIndex

variable {K I α : Type}

/-! ## Outcomes -/

namespace AnswersOrFails

variable {ε ε' : Type} {Q : α → Prop}

theorem mapError {r : Except (Halt ε) α} (h : AnswersOrFails Q r) (f : ε → ε') :
    AnswersOrFails Q (r.mapError (.map f)) := by
  cases hr : r with
  | ok a => exact h.answered hr
  | error halt =>
    obtain ⟨e, rfl⟩ := h.failed hr
    trivial

theorem ofExcept (r : Except ε α) : AnswersOrFails (fun _ => True) (r.mapError .failed) := by
  cases r <;> trivial

end AnswersOrFails

namespace Image

variable [Codec K] [Codec I] [GuardedCodec K] [GuardedCodec I]

/-- What is fetched has the name it was asked for, and an inner page its shape. -/
theorem answersOrFails_fetch (image : Image) (ref : PageRef) : AnswersOrFails
    (fun page : Page K I => page.ref = ref ∧ StoredPage.Shaped page.node) (image.fetch ref) := by
  unfold fetch
  refine ((image.answersOrFails_page ref.id).mapError _).bind fun stored _ _ => ?_
  refine (stored.answersOrFails_decode.mapError _).bind fun read _ hshaped => ?_
  exact ⟨rfl, hshaped⟩

theorem answersOrFails_resolved (image : Image) (life : Lifecycle) (ref : PageRef) : AnswersOrFails
    (fun page : Page K I => page.ref = ref ∧ StoredPage.Shaped page.node) (image.resolved life ref) := by
  unfold resolved
  refine (AnswersOrFails.ofExcept life.requireReady).bind fun _ _ _ => ?_
  split
  · trivial
  · exact image.answersOrFails_fetch ref

theorem answersOrFails_started (image : Image) (life : Lifecycle) :
    AnswersOrFails (fun _ => True) (image.started life) := by
  unfold started
  refine (AnswersOrFails.ofExcept life.start).bind fun _ _ _ => ?_
  exact (image.answersOrFails_descriptor.mapError _).bind fun _ _ _ => trivial

end Image

namespace Pager

variable [IndexKey K] [Codec I] {image : Image} {capacity : Nat} {life : Lifecycle} {pager : Pager K I}

theorem Stands.afterEach (h : pager.Stands image capacity life) (requests : List (Σ α, Request K I α)) :
    ∃ life', (pager.afterEach Request.perform requests).Stands image capacity life' := by
  induction requests generalizing pager life with
  | nil => exact ⟨life, h⟩
  | cons request requests ih => exact ih (h.perform request.2)

/-- Where a start leaves a pager standing as it does, so do any calls that do not let it go. -/
theorem Stands.afterEach_of_stays (h : pager.Stands image capacity life) (hstays : image.lifeAfterStart life = life)
    {requests : List (Σ α, Request K I α)} (hkept : ∀ request ∈ requests, request.2.disposes = false) :
    (pager.afterEach Request.perform requests).Stands image capacity life := by
  induction requests generalizing pager with
  | nil => exact h
  | cons request requests ih =>
    refine ih ?_ fun other hother => hkept other (List.mem_cons_of_mem request hother)
    obtain ⟨α, request⟩ := request
    have hstep := h.perform request
    cases request with
    | start => rwa [lifeAfter, hstays] at hstep
    | resolve ref => exact hstep
    | mightContain key => exact hstep
    | dispose => exact absurd (hkept _ List.mem_cons_self) (by simp [Request.disposes])

/-- Over any bytes whatever and after any calls, every call is answered or fails. A page that is handed out has the
name that was asked for, and one more child than separators if it is an inner page. A filter that is loaded has all its
bits in its words. A start that fails over the descriptor or the filter leaves the pager as it was: pages are refused,
and starting it again fails in the same way. And nothing is added up that does not fit into a word. -/
theorem withstands [GuardedCodec K] [GuardedCodec I] (image : Image) (capacity : Nat)
    (requests : List (Σ α, Request K I α)) :
    (∀ {α : Type} (request : Request K I α),
      AnswersOrFails (fun _ => True)
        (request.perform.answer ((ofImage image capacity).afterEach Request.perform requests)))
    ∧ (∀ ref page, (Pager.resolve ref).answer ((ofImage image capacity).afterEach Request.perform requests) = .ok page →
      page.ref = ref ∧ StoredPage.Shaped page.node)
    ∧ (∀ d filter, image.descriptor = .ok (d, some filter) →
      ∀ (key : K) (i : Nat), filter.bitIndex key i / 64 < filter.words.size)
    ∧ (∀ e, image.descriptor = .error (.failed e) → (∀ request ∈ requests, request.2.disposes = false) →
      Pager.start.answer ((ofImage image capacity).afterEach Request.perform requests)
        = .error (.failed (.persistence .descriptor e))
      ∧ ∀ ref, (Pager.resolve ref).answer ((ofImage image capacity).afterEach Request.perform requests)
        = .error (.failed (.unsupported .notStarted)))
    ∧ (image.bytes.length + 2 ^ 32 ≤ 2 ^ 64 →
      (∀ offset, image.page offset = image.pageExact offset.toNat) ∧ image.descriptor = image.descriptorExact) := by
  obtain ⟨life, h⟩ := (stands_ofImage image capacity : Stands (K := K) (I := I) ..).afterEach requests
  refine ⟨fun request => ?_, fun ref page hpage => ?_, fun _ filter _ key i => filter.bitIndex_lt key i,
    fun e herror hkept => ?_, fun hsize => ⟨Image.page_eq_pageExact hsize, Image.descriptor_eq_descriptorExact hsize⟩⟩
  · cases request with
    | start =>
      rw [Request.perform, h.start_gives.1]
      exact (image.answersOrFails_started life).bind fun _ _ _ => trivial
    | resolve ref =>
      rw [Request.perform, (h.resolve_gives ref).1]
      exact (image.answersOrFails_resolved life ref).mono fun _ _ => trivial
    | mightContain key =>
      rw [Request.perform, (h.mightContain_gives key).1]
      trivial
    | dispose => trivial
  · rw [(h.resolve_gives ref).1] at hpage
    exact (image.answersOrFails_resolved life ref).answered hpage
  · -- the descriptor reads no better at a later start
    have hstays : image.lifeAfterStart .fresh = .fresh := by
      unfold Image.lifeAfterStart
      rw [herror]
    have hfresh := (stands_ofImage image capacity : Stands (K := K) (I := I) ..).afterEach_of_stays hstays hkept
    refine ⟨?_, fun ref => (hfresh.resolve_gives ref).1⟩
    rw [hfresh.start_gives.1]
    unfold Image.started
    rw [herror]
    rfl

/-- An image that consists of the offset of its descriptor only, the greatest offset there is. -/
def farDescriptor : Image := ⟨List.replicate 8 0xFF⟩

theorem withstands_farDescriptor : farDescriptor.bytes.length + 2 ^ 32 ≤ 2 ^ 64
    ∧ farDescriptor.descriptor = .error (.failed (.pageStart (2 ^ 64 - 1) 8))
    ∧ Pager.start.answer ((ofImage farDescriptor 1 : Pager UInt64 String).afterEach Request.perform
      [⟨_, .start⟩, ⟨_, .resolve ⟨0xFFFFFFFFFFFFFFF0⟩⟩, ⟨_, .mightContain 5⟩])
        = .error (.failed (.persistence .descriptor (.pageStart (2 ^ 64 - 1) 8)))
    ∧ farDescriptor.page 0xFFFFFFFFFFFFFFF0 = farDescriptor.pageExact (2 ^ 64 - 16) := by
  have hsize : farDescriptor.bytes.length + 2 ^ 32 ≤ 2 ^ 64 := by decide
  have herror : farDescriptor.descriptor = .error (.failed (.pageStart (2 ^ 64 - 1) 8)) := by rfl
  obtain ⟨-, -, -, hfailed, hexact⟩ := withstands (K := UInt64) (I := String) farDescriptor 1
    [⟨_, .start⟩, ⟨_, .resolve ⟨0xFFFFFFFFFFFFFFF0⟩⟩, ⟨_, .mightContain 5⟩]
  exact ⟨hsize, herror, (hfailed _ herror (by simp [Request.disposes])).1, (hexact hsize).1 _⟩

end Pager

end PagedIndex
