/-
  HashArchive.Proofs.Session

  Sources that share a stream as if each had the bytes to itself.  A session replies as the
  machine `Session.Slices` does, which has no cursor and takes every answer as a slice of
  the bytes; and what is asked of other sources does not show in the replies of one
  (`Session.run_refines`).
-/
import Mathlib
import HashArchive.Proofs.Slices
import HashArchive.Session

namespace HashArchive

/-! ## One source by itself -/

/-- What a request does with its source: the reply, the source as it is then, and the
    sources that are added. -/
structure Turn where
  reply : Session.Reply
  source : Source
  added : List Source := []

/-- What a source does on a request about it, given the bytes of the stream. -/
def Source.turn (bytes : Bytes) (request : Session.Request) (source : Source) : Turn :=
  match request with
  | .header _ => ⟨Session.reply .header (source.headerAt bytes), source.frozen bytes, []⟩
  | .stored _ => ⟨Session.reply .bytes (source.storedAt bytes), source.frozen bytes, []⟩
  | .content _ => ⟨Session.reply .bytes (source.contentAt bytes), source.frozen bytes, []⟩
  -- A copy has what the original has kept, and is read on its own from then on.
  | .copy _ => ⟨.added source, source, [source]⟩
  | .detach _ =>
    match source.detachedAt bytes with
    | .ok detached => ⟨.added detached, source.frozen bytes, [detached]⟩
    | .error error => ⟨.failed error, source.frozen bytes, []⟩
  | .replace _ => ⟨.done, source, []⟩

theorem Source.Fits.turn {bytes : Bytes} {source : Source} (hfits : source.Fits)
    (hbytes : bytes.length < 2 ^ 64) (request : Session.Request) :
    (source.turn bytes request).source.Fits ∧
      ∀ other ∈ (source.turn bytes request).added, other.Fits := by
  have hfrozen := hfits.frozen hbytes
  cases request with
  | header place => exact ⟨hfrozen, fun other hmem => by cases hmem⟩
  | stored place => exact ⟨hfrozen, fun other hmem => by cases hmem⟩
  | content place => exact ⟨hfrozen, fun other hmem => by cases hmem⟩
  | replace bytes => exact ⟨hfits, fun other hmem => by cases hmem⟩
  | copy place =>
    refine ⟨hfits, fun other hmem => ?_⟩
    obtain rfl := List.mem_singleton.mp hmem
    exact hfits
  | detach place =>
    rw [Source.turn]
    cases hdetached : source.detachedAt bytes with
    | error error => exact ⟨hfrozen, fun other hmem => by cases hmem⟩
    | ok detached =>
      refine ⟨hfrozen, fun other hmem => ?_⟩
      obtain rfl := List.mem_singleton.mp hmem
      exact hfits.of_detachedAt hdetached

namespace Session

/-! ## Sessions without a cursor -/

/-- The bytes that the answers are slices of, and the sources. -/
structure Slices where
  bytes : Bytes
  sources : List Source

/-- A session without its cursor. -/
def slices (session : Session) : Slices := ⟨session.stream.bytes, session.sources⟩

/-- The source that a request is about; none when it is about the bytes of all. -/
def Request.place? : Request → Option Nat
  | .header place | .stored place | .content place | .copy place | .detach place => some place
  | .replace _ => none

theorem Request.exists_of_place?_eq_none {request : Request} (h : request.place? = none) :
    ∃ bytes, request = .replace bytes := by
  cases request with
  | replace bytes => exact ⟨bytes, rfl⟩
  | _ => cases h

/-- Whether a request is about the source at a place, or about the bytes of all. -/
def Request.concerns (place : Nat) (request : Request) : Bool :=
  request.place?.all (· == place)

/-- The replies to those requests that are about a place. -/
def repliesTo (place : Nat) (requests : List Request) (replies : List Reply) : List Reply :=
  ((requests.zip replies).filter fun pair => pair.1.concerns place).map Prod.snd

/-- The replies to requests made one after another, and what they lead to; none when one of
    them names no source. -/
def run? {σ : Type} (step? : σ → Request → Option (Reply × σ)) :
    σ → List Request → Option (List Reply × σ)
  | state, [] => some ([], state)
  | state, request :: requests => do
    let (reply, state) ← step? state request
    let (replies, state) ← run? step? state requests
    return (reply :: replies, state)

theorem run?_cons_eq_some_iff {σ : Type} {step? : σ → Request → Option (Reply × σ)}
    {state last : σ} {request : Request} {requests : List Request} {replies : List Reply} :
    run? step? state (request :: requests) = some (replies, last) ↔
      ∃ reply next others, step? state request = some (reply, next) ∧
        run? step? next requests = some (others, last) ∧ replies = reply :: others := by
  rw [run?]
  constructor
  · intro h
    obtain ⟨⟨reply, next⟩, hstep, h⟩ := Option.bind_eq_some_iff.mp h
    obtain ⟨⟨others, last'⟩, hrun, h⟩ := Option.bind_eq_some_iff.mp h
    obtain ⟨rfl, rfl⟩ := Prod.mk.inj (Option.some.inj h)
    exact ⟨reply, next, others, hstep, hrun, rfl⟩
  · rintro ⟨reply, next, others, hstep, hrun, rfl⟩
    rw [hstep, Option.bind_eq_bind, Option.bind_some]
    dsimp only
    rw [hrun]
    rfl

namespace Slices

/-- The session after a source has been made use of. -/
def put (slices : Slices) (place : Nat) (turn : Turn) : Slices :=
  { slices with sources := slices.sources.set place turn.source ++ turn.added }

/-- Makes use of the source at a place. -/
def use? (slices : Slices) (place : Nat) (turn : Source → Turn) : Option (Reply × Slices) :=
  (slices.sources[place]?).map fun source => ((turn source).reply, slices.put place (turn source))

/-- One request; none when it names no source. -/
def step? (slices : Slices) (request : Request) : Option (Reply × Slices) :=
  match request with
  | .replace bytes => some (.done, { slices with bytes })
  | _ => request.place?.bind fun place => slices.use? place (Source.turn slices.bytes request)

variable {slices other after : Slices} {place used : Nat} {reply : Reply}

theorem step?_eq_of_place? {request : Request} (h : request.place? = some place) :
    slices.step? request = slices.use? place (Source.turn slices.bytes request) := by
  cases request with
  | replace bytes => cases h
  | _ =>
    obtain rfl := Option.some.inj h
    rfl

theorem use?_eq_some_iff {turn : Source → Turn} :
    slices.use? place turn = some (reply, after) ↔
      ∃ source, slices.sources[place]? = some source ∧ reply = (turn source).reply ∧
        after = slices.put place (turn source) := by
  rw [use?, Option.map_eq_some_iff]
  constructor
  · rintro ⟨source, hsource, heq⟩
    obtain ⟨hreply, hafter⟩ := Prod.mk.inj heq
    exact ⟨source, hsource, hreply.symm, hafter.symm⟩
  · rintro ⟨source, hsource, rfl, rfl⟩
    exact ⟨source, hsource, rfl⟩

theorem getElem?_put_self (turn : Turn) (h : place < slices.sources.length) :
    (slices.put place turn).sources[place]? = some turn.source := by
  rw [put, List.getElem?_append_left (by rwa [List.length_set]), List.getElem?_set_self h]

/-- The other sources stay, and stay at their places. -/
theorem getElem?_put_of_ne (turn : Turn) (h : place < slices.sources.length)
    (hne : used ≠ place) :
    (slices.put used turn).sources[place]? = slices.sources[place]? := by
  rw [put, List.getElem?_append_left (by rwa [List.length_set]), List.getElem?_set_ne hne]

/-! ### Requests are answered -/

theorem exists_use (turn : Source → Turn) (h : place < slices.sources.length) :
    ∃ reply after, slices.use? place turn = some (reply, after) ∧
      slices.sources.length ≤ after.sources.length := by
  refine ⟨_, _, use?_eq_some_iff.mpr ⟨slices.sources[place], List.getElem?_eq_getElem h, rfl, rfl⟩,
    ?_⟩
  rw [put, List.length_append, List.length_set]
  omega

theorem exists_step {request : Request}
    (h : ∀ place, request.place? = some place → place < slices.sources.length) :
    ∃ reply after, slices.step? request = some (reply, after) ∧
      slices.sources.length ≤ after.sources.length := by
  cases hplace : request.place? with
  | some place =>
    rw [step?_eq_of_place? hplace]
    exact exists_use _ (h place hplace)
  | none =>
    obtain ⟨bytes, rfl⟩ := Request.exists_of_place?_eq_none hplace
    exact ⟨.done, { slices with bytes }, rfl, le_refl _⟩

/-- Sources do not go away, so requests about them are answered to the last. -/
theorem exists_run {requests : List Request}
    (h : ∀ request ∈ requests, ∀ place, request.place? = some place →
      place < slices.sources.length) :
    ∃ replies after, run? step? slices requests = some (replies, after) := by
  induction requests generalizing slices with
  | nil => exact ⟨[], slices, rfl⟩
  | cons request requests ih =>
    obtain ⟨reply, next, hstep, hmore⟩ := exists_step (h request List.mem_cons_self)
    obtain ⟨replies, after, hrun⟩ := ih fun other hmem place hplace =>
      Nat.lt_of_lt_of_le (h other (List.mem_cons_of_mem _ hmem) place hplace) hmore
    exact ⟨reply :: replies, after,
      run?_cons_eq_some_iff.mpr ⟨reply, next, replies, hstep, hrun, rfl⟩⟩

/-! ### Addresses -/

/-- The bytes are not more than addresses reach, and each place behind a kept header has an
    address. -/
structure Fits (slices : Slices) : Prop where
  bytes : slices.bytes.length < 2 ^ 64
  sources : ∀ source ∈ slices.sources, source.Fits

theorem Fits.use (h : slices.Fits) {request : Request}
    (huse : slices.use? place (Source.turn slices.bytes request) = some (reply, after)) :
    after.Fits := by
  obtain ⟨source, hsource, -, rfl⟩ := use?_eq_some_iff.mp huse
  obtain ⟨hown, hadded⟩ :=
    (h.sources source (List.mem_of_getElem? hsource)).turn h.bytes request
  refine ⟨h.bytes, fun other hmem => ?_⟩
  rcases List.mem_append.mp hmem with hmem | hmem
  · rcases List.mem_or_eq_of_mem_set hmem with hmem | rfl
    · exact h.sources other hmem
    · exact hown
  · exact hadded other hmem

theorem Fits.step (h : slices.Fits) {request : Request}
    (hrequest : ∀ bytes, request = .replace bytes → bytes.length < 2 ^ 64)
    (hstep : slices.step? request = some (reply, after)) : after.Fits := by
  cases hplace : request.place? with
  | some place => exact h.use (step?_eq_of_place? hplace ▸ hstep)
  | none =>
    obtain ⟨bytes, rfl⟩ := Request.exists_of_place?_eq_none hplace
    obtain ⟨-, rfl⟩ := Prod.mk.inj (Option.some.inj hstep)
    exact ⟨hrequest bytes rfl, h.sources⟩

/-! ### Requests about other sources -/

/-- Two sessions have the same bytes and the same source at a place. -/
structure Agree (place : Nat) (slices other : Slices) : Prop where
  bytes : slices.bytes = other.bytes
  found : ∃ source, slices.sources[place]? = some source ∧ other.sources[place]? = some source

/-- Where two sessions agree, making use of the source there does the same to both. -/
theorem Agree.use (h : Agree place slices other) {turn : Source → Turn}
    (huse : slices.use? place turn = some (reply, after)) :
    ∃ after', other.use? place turn = some (reply, after') ∧ Agree place after after' := by
  obtain ⟨source, hslices, hother⟩ := h.found
  have hlt := (List.getElem?_eq_some_iff.mp hslices).1
  have hlt' := (List.getElem?_eq_some_iff.mp hother).1
  obtain ⟨source', hsource', rfl, rfl⟩ := use?_eq_some_iff.mp huse
  obtain rfl : source = source' := by rwa [hslices, Option.some.injEq] at hsource'
  refine ⟨other.put place (turn source), use?_eq_some_iff.mpr ⟨source, hother, rfl, rfl⟩,
    h.bytes, (turn source).source, ?_, ?_⟩
  · exact getElem?_put_self _ hlt
  · exact getElem?_put_self _ hlt'

/-- Making use of another source leaves what two sessions agree in. -/
theorem Agree.use_of_ne (h : Agree place slices other) {turn : Source → Turn}
    (hne : used ≠ place) (huse : slices.use? used turn = some (reply, after)) :
    Agree place after other := by
  obtain ⟨source, hslices, hother⟩ := h.found
  obtain ⟨-, -, -, rfl⟩ := use?_eq_some_iff.mp huse
  refine ⟨h.bytes, source, ?_, hother⟩
  rw [getElem?_put_of_ne _ (List.getElem?_eq_some_iff.mp hslices).1 hne, hslices]

/-- A request about the place does the same where two sessions agree. -/
theorem Agree.step (h : Agree place slices other) {request : Request}
    (hconcerns : request.concerns place = true)
    (hstep : slices.step? request = some (reply, after)) :
    ∃ after', other.step? request = some (reply, after') ∧ Agree place after after' := by
  cases hplace : request.place? with
  | some used =>
    obtain rfl : used = place := by simpa [Request.concerns, hplace] using hconcerns
    rw [step?_eq_of_place? hplace] at hstep ⊢
    exact h.use (h.bytes ▸ hstep)
  | none =>
    obtain ⟨bytes, rfl⟩ := Request.exists_of_place?_eq_none hplace
    obtain ⟨rfl, rfl⟩ := Prod.mk.inj (Option.some.inj hstep)
    exact ⟨_, rfl, rfl, h.found⟩

/-- A request about another place leaves what two sessions agree in. -/
theorem Agree.step_of_not (h : Agree place slices other) {request : Request}
    (hconcerns : request.concerns place = false)
    (hstep : slices.step? request = some (reply, after)) : Agree place after other := by
  obtain ⟨used, hplace, hne⟩ : ∃ used, request.place? = some used ∧ used ≠ place := by
    cases hplace : request.place? with
    | none => simp [Request.concerns, hplace] at hconcerns
    | some used => exact ⟨used, rfl, by simpa [Request.concerns, hplace] using hconcerns⟩
  exact h.use_of_ne hne (step?_eq_of_place? hplace ▸ hstep)

/-- Leaving out the requests about other places changes neither the replies to the rest nor
    the source that they lead to. -/
theorem Agree.run (h : Agree place slices other) {requests : List Request}
    {replies : List Reply} (hrun : run? step? slices requests = some (replies, after)) :
    ∃ after', run? step? other (requests.filter (·.concerns place))
        = some (repliesTo place requests replies, after') ∧ Agree place after after' := by
  induction requests generalizing slices other replies with
  | nil =>
    obtain ⟨rfl, rfl⟩ := Prod.mk.inj (Option.some.inj hrun)
    exact ⟨other, rfl, h⟩
  | cons request requests ih =>
    obtain ⟨reply, next, others, hstep, hrest, rfl⟩ := run?_cons_eq_some_iff.mp hrun
    cases hconcerns : request.concerns place with
    | false =>
      obtain ⟨after', hrun', hagree⟩ := ih (h.step_of_not hconcerns hstep) hrest
      refine ⟨after', ?_, hagree⟩
      rw [List.filter_cons_of_neg (by rw [hconcerns]; decide), hrun', repliesTo, repliesTo,
        List.zip_cons_cons, List.filter_cons_of_neg (by rw [hconcerns]; decide)]
    | true =>
      obtain ⟨next', hstep', hnext⟩ := h.step hconcerns hstep
      obtain ⟨after', hrun', hagree⟩ := ih hnext hrest
      refine ⟨after', ?_, hagree⟩
      rw [List.filter_cons_of_pos hconcerns, run?_cons_eq_some_iff]
      refine ⟨reply, next', repliesTo place requests others, hstep', hrun', ?_⟩
      rw [repliesTo, List.zip_cons_cons, List.filter_cons_of_pos (by exact hconcerns)]
      rfl

end Slices

/-! ## The cursor does not show -/

/-- The sessions of a program: one is opened over a stream with sources that have not been
    read from, and goes on with requests. -/
inductive Reached : Session → Prop
  | opened (stream : Stream) (hbytes : stream.bytes.length < 2 ^ 64) (id : StreamId)
      (offsets : List UInt64) :
      Reached ⟨stream, offsets.map fun offset => .deferred { stream := id, offset }⟩
  | step {session after : Session} {request : Request} {reply : Reply}
      (hreached : Reached session)
      (hrequest : ∀ bytes, request = .replace bytes → bytes.length < 2 ^ 64)
      (hstep : session.step? request = some (reply, after)) : Reached after

variable {session : Session}

/-- A read through a source is a turn of it, when it comes to what the turn says. -/
theorem map_read {α : Type} {operation : Source → Stream → Reading Source α}
    {answerAt : Source → Except ArchiveError α} {place : Nat}
    (hgives : ∀ source ∈ session.sources, (operation source session.stream).Gives
      (answerAt source) (source.frozen session.stream.bytes) session.stream.bytes)
    (encode : Except ArchiveError α × Session → Reply × Session) (turn : Source → Turn)
    (hturn : ∀ source stream, stream.bytes = session.stream.bytes →
      Prod.map id slices (encode (answerAt source,
        ⟨stream, session.sources.set place (source.frozen session.stream.bytes)⟩))
      = ((turn source).reply, session.slices.put place (turn source))) :
    ((session.read place operation).map encode).map (Prod.map id slices)
      = session.slices.use? place turn := by
  rw [read, Slices.use?, Option.map_map, Option.map_map]
  show _ = (session.sources[place]?).map _
  cases hsource : session.sources[place]? with
  | none => rfl
  | some source =>
    obtain ⟨hanswer, hreader, hbytes⟩ := hgives source (List.mem_of_getElem? hsource)
    rw [Option.map_some, Option.map_some, ← hturn source _ hbytes]
    simp only [Function.comp, hanswer, hreader]

/-- What a session replies and becomes is what its slices reply and become. -/
theorem step?_refines (hfits : session.slices.Fits) (request : Request) :
    (session.step? request).map (Prod.map id slices) = session.slices.step? request := by
  have hsources : ∀ source ∈ session.sources, source.Fits := hfits.sources
  have hbytes : session.stream.bytes.length < 2 ^ 64 := hfits.bytes
  cases request with
  | header place =>
    refine map_read (fun source _ => Source.readHeader_gives) _ _ fun source stream hstream => ?_
    simp [slices, Slices.put, Source.turn, hstream]
  | stored place =>
    refine map_read (fun source hmem => Source.readStored_gives (hsources source hmem) hbytes)
      _ _ fun source stream hstream => ?_
    simp [slices, Slices.put, Source.turn, hstream]
  | content place =>
    refine map_read (fun source hmem => Source.readContent_gives (hsources source hmem) hbytes)
      _ _ fun source stream hstream => ?_
    simp [slices, Slices.put, Source.turn, hstream]
  | detach place =>
    refine map_read (fun source hmem => Source.readDetached_gives (hsources source hmem) hbytes)
      _ _ fun source stream hstream => ?_
    cases hdetached : source.detachedAt session.stream.bytes with
    | ok detached => simp [slices, Slices.put, Source.turn, hstream, hdetached]
    | error error => simp [slices, Slices.put, Source.turn, hstream, hdetached]
  | copy place =>
    rw [step?, Slices.step?_eq_of_place? rfl, Slices.use?, Option.map_map]
    show _ = (session.sources[place]?).map _
    cases hsource : session.sources[place]? with
    | none => rfl
    | some source =>
      -- The original is put back where it is.
      obtain ⟨hlt, rfl⟩ := List.getElem?_eq_some_iff.mp hsource
      simp [slices, Slices.put, Source.turn]
  | replace bytes => rfl

/-- One request keeps the addresses in bounds. -/
theorem fits_step (hfits : session.slices.Fits) {request : Request}
    (hrequest : ∀ bytes, request = .replace bytes → bytes.length < 2 ^ 64) {reply : Reply}
    {after : Session} (hstep : session.step? request = some (reply, after)) :
    after.slices.Fits := by
  have hslices : session.slices.step? request = some (reply, after.slices) := by
    rw [← step?_refines hfits, hstep]
    rfl
  exact hfits.step hrequest hslices

theorem Reached.fits (h : session.Reached) : session.slices.Fits := by
  induction h with
  | opened stream hbytes id offsets =>
    refine ⟨hbytes, fun source hmem => ?_⟩
    -- No header has been kept yet.
    obtain ⟨offset, -, rfl⟩ := List.mem_map.mp hmem
    intro hkept
    cases hkept
  | step hreached hrequest hstep ih => exact fits_step ih hrequest hstep

/-- Requests one after another are answered as the slices answer them. -/
theorem run?_refines (hfits : session.slices.Fits) {requests : List Request}
    (hrequests : ∀ bytes, .replace bytes ∈ requests → bytes.length < 2 ^ 64) :
    (run? step? session requests).map (Prod.map id slices)
      = run? Slices.step? session.slices requests := by
  induction requests generalizing session with
  | nil => rfl
  | cons request requests ih =>
    have hrequest : ∀ bytes, request = .replace bytes → bytes.length < 2 ^ 64 := by
      rintro bytes rfl
      exact hrequests bytes List.mem_cons_self
    have hothers : ∀ bytes, .replace bytes ∈ requests → bytes.length < 2 ^ 64 :=
      fun bytes hmem => hrequests bytes (List.mem_cons_of_mem _ hmem)
    rw [run?, run?, ← step?_refines hfits]
    cases hstep : session.step? request with
    | none => rfl
    | some pair =>
      obtain ⟨reply, next⟩ := pair
      have hrest := ih (fits_step hfits hrequest hstep) hothers
      rw [Option.map_some]
      simp only [Option.bind_eq_bind, Option.bind_some, Prod.map]
      rw [← hrest]
      cases run? step? next requests with
      | none => rfl
      | some rest => rfl

/-- A session acts on requests as if each source had the bytes to itself. -/
structure ActsAsSlices (session : Session) (requests : List Request) : Prop where
  /-- The replies are slices of the bytes, and the sources evolve as the slices say. -/
  refines : (run? step? session requests).map (Prod.map id slices)
    = run? Slices.step? session.slices requests
  /-- Requests about sources that are there are all answered. -/
  answered : (∀ request ∈ requests, ∀ place, request.place? = some place →
    place < session.sources.length) → (run? step? session requests).isSome
  /-- Wherever the cursor is at first, the same is replied and kept. -/
  cursor : ∀ position,
    (run? step? { session with stream := session.stream.seek position } requests).map
        (Prod.map id slices)
      = (run? step? session requests).map (Prod.map id slices)
  /-- Without the requests about other sources, a source gives the same replies and ends as
      it does with them. -/
  alone : ∀ place < session.sources.length, ∀ replies after,
    run? step? session requests = some (replies, after) →
      ∃ after', run? step? session (requests.filter (·.concerns place))
          = some (repliesTo place requests replies, after') ∧
        after'.sources[place]? = after.sources[place]?
  /-- Where a header is found, the address behind it does not go round. -/
  address : ∀ ref, .deferred ref ∈ session.sources → ∀ header,
    (ref.readHeader session.stream).answer = .ok header →
      ref.dataOffset.toNat = ref.offset.toNat + Format.headerLength

/-- Sources over one stream do not get in each other's way: whatever is asked of them, and
    whenever the bytes are replaced, each answers with slices of the bytes there are. -/
theorem run_refines (hreached : session.Reached) {requests : List Request}
    (hrequests : ∀ bytes, .replace bytes ∈ requests → bytes.length < 2 ^ 64) :
    session.ActsAsSlices requests := by
  have hfits := hreached.fits
  have hrefines := run?_refines hfits hrequests
  refine ⟨hrefines, fun hnamed => ?_, fun position => ?_, fun place hplace replies after hrun => ?_,
    fun ref hmem header hheader => ?_⟩
  · have hsources : ∀ request ∈ requests, ∀ place, request.place? = some place →
        place < session.slices.sources.length := hnamed
    obtain ⟨replies, after, hrun⟩ := Slices.exists_run hsources
    rw [← Option.isSome_map (f := Prod.map id slices), hrefines, hrun, Option.isSome_some]
  · have hseek : Session.slices { session with stream := session.stream.seek position }
        = session.slices := rfl
    rw [run?_refines (hseek.symm ▸ hfits) hrequests, hseek, hrefines]
  · -- The slices agree with themselves, and go on agreeing at the place.
    have hagree : Slices.Agree place session.slices session.slices :=
      ⟨rfl, session.sources[place], List.getElem?_eq_getElem hplace,
        List.getElem?_eq_getElem hplace⟩
    have hslices : run? Slices.step? session.slices requests = some (replies, after.slices) := by
      rw [← hrefines, hrun]
      rfl
    obtain ⟨after', hrun', -, source, hafter, hafter'⟩ := hagree.run hslices
    have hfewer : ∀ bytes, .replace bytes ∈ requests.filter (·.concerns place) →
        bytes.length < 2 ^ 64 := fun bytes hmem => hrequests bytes (List.mem_filter.mp hmem).1
    rw [← run?_refines hfits hfewer] at hrun'
    obtain ⟨⟨replies', last⟩, hlast, heq⟩ := Option.map_eq_some_iff.mp hrun'
    obtain ⟨rfl, rfl⟩ := Prod.mk.inj heq
    exact ⟨last, hlast, hafter'.trans hafter.symm⟩
  · rw [LazyRef.readHeader_gives.answer] at hheader
    have hown : ref.Fits := hfits.sources (.deferred ref) hmem
    exact LazyRef.toNat_dataOffset (hown.lt_of_headerAt hfits.bytes hheader)

/-- Three sources over the bytes of two records, of which the second is cut short; the third
    source is at the last address there is. -/
def crowded : Session where
  stream := {
    bytes := RecordHeader.encode ⟨false, 3, 3⟩ ++ [111, 110, 101]
      ++ RecordHeader.encode ⟨true, 9, 40⟩ ++ [1, 2]
    position := 5 }
  sources := [0, 19, 18446744073709551615].map fun offset =>
    .deferred { stream := 0, offset }

/-- Requests about the three sources and a copy, before and after the bytes are replaced. -/
def crowdedRequests : List Request :=
  [.stored 0, .copy 0, .stored 1, .header 2, .replace [42], .header 3, .stored 3, .header 1,
    .content 2]

theorem run_refines_crowded :
    crowded.ActsAsSlices crowdedRequests ∧
      (run? step? crowded crowdedRequests).map Prod.fst = some
        [.bytes [111, 110, 101],
          .added (.deferred { stream := 0, offset := 0, header? := some ⟨false, 3, 3⟩ }),
          .failed .endOfStream, .failed .endOfStream, .done, .header ⟨false, 3, 3⟩,
          .failed .endOfStream, .header ⟨true, 9, 40⟩, .failed .endOfStream] := by
  refine ⟨run_refines (.opened _ (by decide) 0 [0, 19, 18446744073709551615]) ?_, by decide +kernel⟩
  intro bytes hmem
  obtain rfl : bytes = [42] := by simpa [crowdedRequests] using hmem
  decide

end Session

end HashArchive
