import Mathlib.Data.List.Nodup
import Doormat.Protocol.Queues

/-! The order that the queue of a client keeps, with what the application does in
`on_request_sent`. -/
namespace Doormat.Protocol

open Bytes Doormat.Http

/-- Something has been serialised for the object. -/
def Spoken (log : List Happening) (id : Nat) : Prop := ∃ bytes, .serialised id bytes ∈ log

/-- The closure ends a response. -/
def Posted.ends : Posted → Bool
  | .endResponse _ => true
  | _ => false

theorem spoken_append {log : List Happening} {e : Happening} {id : Nat} :
    Spoken (log ++ [e]) id ↔ Spoken log id ∨ ∃ bytes, e = .serialised id bytes := by
  constructor
  · rintro ⟨bytes, hMem⟩
    rcases List.mem_append.mp hMem with hMem | hMem
    · exact .inl ⟨bytes, hMem⟩
    · exact .inr ⟨bytes, (List.mem_singleton.mp hMem).symm⟩
  · rintro (⟨bytes, hMem⟩ | ⟨bytes, rfl⟩)
    · exact ⟨bytes, List.mem_append_left _ hMem⟩
    · exact ⟨bytes, by simp⟩

/-- An end and a removal are what the queue counts. -/
def Happening.counts : Happening → Bool
  | .ended _ | .removed _ => true
  | _ => false

theorem count_append_of_not_counts {log : List Happening} {e h : Happening}
    (he : e.counts = false) (hh : h.counts = true) : (log ++ [e]).count h = log.count h := by
  rw [List.count_append, Nat.add_eq_left, List.count_eq_zero]
  intro hMem
  rw [List.mem_singleton.mp hMem, he] at hh
  cases hh

/-- A removal stays behind the end of its object. -/
theorem ordered_append {log : List Happening} {e : Happening}
    (h : ∀ id before after, log = before ++ .removed id :: after → .ended id ∈ before)
    (he : ∀ id, e = .removed id → .ended id ∈ log) :
    ∀ id before after, log ++ [e] = before ++ .removed id :: after → .ended id ∈ before := by
  intro id before after hEq
  rcases List.eq_nil_or_concat after with rfl | ⟨rest, last, rfl⟩
  · obtain ⟨rfl, hLast⟩ := List.append_inj' hEq rfl
    exact he id (List.singleton_inj.mp hLast)
  · rw [List.concat_eq_append, ← List.cons_append, ← List.append_assoc] at hEq
    exact h id before rest (List.append_inj' hEq rfl).1

namespace Http1

/-- The connection has been closed by the application, or has failed. -/
def Broken (c : Http1) : Prop := c.userClose = true ∨ c.errors ≠ []

/-- The headers of the request have been given, and either wait in it or have been
serialised. -/
def Begun (locals : Nat → Local) (log : List Happening) (id : Nat) : Prop :=
  (locals id).headers.isSome ∨ Spoken log id

/-- The first requests of these, as far as they have ended, have been given their headers. -/
def EndsBegun (locals : Nat → Local) (log : List Happening) : List Nat → Prop
  | [] => True
  | id :: rest => (locals id).ended = true → Begun locals log id ∧ EndsBegun locals log rest

section EndsBegun

variable {locals locals' : Nat → Local} {log log' : List Happening} {ids : List Nat}

theorem EndsBegun.mono (h : EndsBegun locals log ids)
    (hBegun : ∀ id ∈ ids, (locals' id).ended = true →
      (locals id).ended = true ∧ (Begun locals log id → Begun locals' log' id)) : EndsBegun locals' log' ids := by
  induction ids with
  | nil => trivial
  | cons id rest ih =>
      intro hEnded
      obtain ⟨hWas, hStill⟩ := hBegun id List.mem_cons_self hEnded
      obtain ⟨hFirst, hRest⟩ := h hWas
      exact ⟨hStill hFirst, ih hRest fun j hj => hBegun j (List.mem_cons_of_mem id hj)⟩

/-- A request that has not ended goes to the end of the queue. -/
theorem EndsBegun.concat {id : Nat} (h : EndsBegun locals log ids) (hOpen : (locals id).ended = false) :
    EndsBegun locals log (ids ++ [id]) := by
  induction ids with
  | nil =>
      intro hEnded
      rw [hOpen] at hEnded
      cases hEnded
  | cons first rest ih =>
      intro hEnded
      obtain ⟨hFirst, hRest⟩ := h hEnded
      exact ⟨hFirst, ih hRest⟩

end EndsBegun

/-- The requests of the queue of which something is left to say. `mid` is the one at the front that
is about to be removed, if there is one. -/
def ahead (mid : Option Nat) (queue : List Nat) : List Nat := if mid.isSome then queue.tail else queue

/-- The order that the queue of a client keeps. `mid` is the request at the front whose
end has been serialised and which is about to be removed, if there is one. -/
structure Orderly (mid : Option Nat) (c : Http1) : Prop where
  client : c.role = .client
  nodup : c.localObjects.Nodup
  opened : ∀ id ∈ c.localObjects, id < c.opened
  front : ∀ id, mid = some id → c.localObjects.head? = some id
  noContinue : ∀ id, (c.locals id).continueRequired = false
  noEnd : ∀ p ∈ c.posted, p.ends = false
  counted : ∀ id, c.log.count (.ended id) =
    c.log.count (.removed id) + if mid = some id then 1 else 0
  waiting : ∀ id ∈ c.localObjects, mid ≠ some id → c.log.count (.ended id) = 0
  once : ∀ id, c.log.count (.ended id) ≤ 1
  fresh : ∀ id, c.opened ≤ id →
    c.log.count (.ended id) = 0 ∧ ¬ Spoken c.log id ∧ (c.locals id).ended = false
  gone : ∀ id < c.opened, id ∉ c.localObjects → c.log.count (.ended id) = 1 ∨ c.Broken
  begun : EndsBegun c.locals c.log (ahead mid c.localObjects)
  speaking : ∀ id ∈ c.localObjects, mid ≠ some id → Spoken c.log id → c.encoder.state ≠ .ZERO
  silent : ∀ id ∈ c.localObjects.tail, ¬ Spoken c.log id
  ordered : ∀ id before after, c.log = before ++ .removed id :: after → .ended id ∈ before

namespace Orderly

variable {mid : Option Nat} {c d c' : Http1} {id : Nat}

theorem start : Orderly none { role := .client } where
  client := rfl
  nodup := List.nodup_nil
  opened := nofun
  front := nofun
  noContinue _ := rfl
  noEnd := nofun
  counted _ := rfl
  waiting := nofun
  once _ := Nat.zero_le 1
  fresh id _ := ⟨rfl, nofun, rfl⟩
  gone id hId := by cases hId
  begun := trivial
  speaking := nofun
  silent := nofun
  ordered id before after hLog := by
    have hNil := congrArg List.length hLog
    simp at hNil

/-- A step that leaves the queue, the encoder and the log alone, and the local objects up
to edits. -/
theorem frame (h : Orderly mid c) (hRole : d.role = c.role)
    (hQueue : d.localObjects = c.localObjects) (hOpened : d.opened = c.opened)
    (hEncoder : d.encoder = c.encoder) (hLog : d.log = c.log)
    (hPosted : ∀ p ∈ d.posted, p ∈ c.posted ∨ p.ends = false)
    (hLocals : ∀ id, (d.locals id).ended = (c.locals id).ended ∧
      (d.locals id).continueRequired = (c.locals id).continueRequired ∧
      ((c.locals id).headers.isSome → (d.locals id).headers.isSome))
    (hBroken : c.Broken → d.Broken) : Orderly mid d where
  client := hRole.trans h.client
  nodup := hQueue ▸ h.nodup
  opened := by
    rw [hQueue, hOpened]
    exact h.opened
  front := by
    rw [hQueue]
    exact h.front
  noContinue id := (hLocals id).2.1.trans (h.noContinue id)
  noEnd p hp := (hPosted p hp).elim (h.noEnd p) fun hEnds => hEnds
  counted := by
    rw [hLog]
    exact h.counted
  waiting := by
    rw [hQueue, hLog]
    exact h.waiting
  once := by
    rw [hLog]
    exact h.once
  fresh := by
    intro id hId
    rw [hOpened] at hId
    rw [hLog, (hLocals id).1]
    exact h.fresh id hId
  gone := by
    rw [hQueue, hOpened, hLog]
    intro id hId hGone
    exact (h.gone id hId hGone).imp_right hBroken
  begun := by
    rw [hQueue, hLog]
    refine h.begun.mono fun id _ hEnded => ?_
    rw [(hLocals id).1] at hEnded
    exact ⟨hEnded, fun hBegun => hBegun.imp_left (hLocals id).2.2⟩
  speaking := by
    rw [hQueue, hLog, hEncoder]
    exact h.speaking
  silent := by
    rw [hQueue, hLog]
    exact h.silent
  ordered := by
    rw [hLog]
    exact h.ordered

/-- An edit of a local object. -/
theorem edit (h : Orderly mid c) {l : Local} (hEdit : Edited (c.locals id) l) :
    Orderly mid (c.setLocal id l) := by
  apply h.frame (d := c.setLocal id l) rfl rfl rfl rfl rfl (fun p hp => .inl hp) _ fun hBroken => hBroken
  intro j
  by_cases hj : j = id
  · subst hj
    rw [setLocal_locals_self]
    exact ⟨hEdit.ended, hEdit.continueRequired, hEdit.headers⟩
  · rw [setLocal_locals_of_ne hj]
    exact ⟨rfl, rfl, fun some => some⟩

theorem doWrite (h : Orderly mid c) : Orderly mid c.doWrite := by
  apply h.frame (doWrite_role c) (doWrite_localObjects c) (doWrite_opened c) (doWrite_encoder c)
    (doWrite_log c)
  · intro p hp
    rcases doWrite_posted hp with hp | ⟨f, rfl⟩
    · exact .inl hp
    · exact .inr rfl
  · intro id
    rw [doWrite_locals]
    exact ⟨rfl, rfl, fun some => some⟩
  · rw [Broken, Broken, doWrite_userClose, doWrite_errors]
    exact id

/-- A happening that the queue does not count and that serialises nothing. -/
theorem record (h : Orderly mid c) {e : Happening} (he : e.counts = false)
    (hSilent : ∀ id bytes, e ≠ .serialised id bytes) : Orderly mid (c.record e) := by
  have hCount : ∀ {e' : Happening}, e'.counts = true →
      (c.record e).log.count e' = c.log.count e' := count_append_of_not_counts he
  have hSpoken : ∀ id, Spoken (c.record e).log id ↔ Spoken c.log id := by
    intro id
    rw [Http1.record, spoken_append]
    apply or_iff_left
    intro hSome
    obtain ⟨bytes, hEq⟩ := hSome
    exact hSilent id bytes hEq
  exact
  { h with
    counted := by
      intro id
      rw [hCount rfl, hCount rfl]
      exact h.counted id
    waiting := by
      intro id hId hMid
      rw [hCount rfl]
      exact h.waiting id hId hMid
    once := by
      intro id
      rw [hCount rfl]
      exact h.once id
    fresh := by
      intro id hId
      rw [hCount rfl, hSpoken]
      exact h.fresh id hId
    gone := by
      intro id hId hGone
      rw [hCount rfl]
      exact h.gone id hId hGone
    begun := by
      exact h.begun.mono fun id _ hEnded => ⟨hEnded, fun hBegun => hBegun.imp_right (hSpoken id).mpr⟩
    speaking := by
      intro id hId hMid
      rw [hSpoken]
      exact h.speaking id hId hMid
    silent := by
      intro id hId
      rw [hSpoken]
      exact h.silent id hId
    ordered := by
      apply ordered_append h.ordered
      rintro id rfl
      cases he }

/-- What the first request holds is encoded. -/
theorem speaks (h : Orderly none c) {rest : List Nat} {l : Local} {e : Encoder} {bytes : ByteString}
    (hFront : c.localObjects = id :: rest) (hState : e.state ≠ .ZERO)
    (hEnded : l.ended = (c.locals id).ended)
    (hContinue : l.continueRequired = (c.locals id).continueRequired) :
    Orderly none ({ c.setLocal id l with encoder := e }.serialise id bytes) := by
  have hCount : ∀ {e' : Happening}, e'.counts = true →
      (c.log ++ [Happening.serialised id bytes]).count e' = c.log.count e' :=
    count_append_of_not_counts rfl
  have hFresh : ∀ {j}, j ∈ rest → j ≠ id := by
    rintro j hj rfl
    have hNodup := h.nodup
    rw [hFront] at hNodup
    exact (List.nodup_cons.mp hNodup).1 hj
  have hSpoken : ∀ {j}, j ≠ id → (Spoken (c.log ++ [Happening.serialised id bytes]) j ↔ Spoken c.log j) := by
    intro j hj
    rw [spoken_append]
    apply or_iff_left
    rintro ⟨bytes', hEq⟩
    cases hEq
    exact hj rfl
  have hLocals : ∀ {j}, j ≠ id → Function.update c.locals id l j = c.locals j :=
    fun hj => Function.update_of_ne hj _ _
  have hOpened : id < c.opened := h.opened id (by rw [hFront]; exact List.mem_cons_self)
  exact
  { h with
    noContinue := by
      intro j
      by_cases hj : j = id
      · subst hj
        show (Function.update c.locals j l j).continueRequired = false
        rw [Function.update_self, hContinue]
        exact h.noContinue j
      · show (Function.update c.locals id l j).continueRequired = false
        rw [hLocals hj]
        exact h.noContinue j
    counted := by
      intro j
      show (c.log ++ [Happening.serialised id bytes]).count (.ended j) =
        (c.log ++ [Happening.serialised id bytes]).count (.removed j) + _
      rw [hCount rfl, hCount rfl]
      exact h.counted j
    waiting := by
      intro j hj hMid
      show (c.log ++ [Happening.serialised id bytes]).count (.ended j) = 0
      rw [hCount rfl]
      exact h.waiting j hj hMid
    once := by
      intro j
      show (c.log ++ [Happening.serialised id bytes]).count (.ended j) ≤ 1
      rw [hCount rfl]
      exact h.once j
    fresh := by
      intro j hj
      have hOther : j ≠ id := by
        rintro rfl
        exact absurd hOpened (Nat.not_lt.mpr hj)
      show (c.log ++ [Happening.serialised id bytes]).count (.ended j) = 0 ∧
        ¬ Spoken (c.log ++ [Happening.serialised id bytes]) j ∧ (Function.update c.locals id l j).ended = false
      rw [hCount rfl, hSpoken hOther, hLocals hOther]
      exact h.fresh j hj
    gone := by
      intro j hj hGone
      show (c.log ++ [Happening.serialised id bytes]).count (.ended j) = 1 ∨ _
      rw [hCount rfl]
      exact h.gone j hj hGone
    begun := by
      refine h.begun.mono fun j _ hEndedJ => ?_
      have hEndedJ : (Function.update c.locals id l j).ended = true := hEndedJ
      by_cases hEq : j = id
      · subst hEq
        rw [Function.update_self, hEnded] at hEndedJ
        exact ⟨hEndedJ, fun _ => .inr (spoken_append.mpr (.inr ⟨bytes, rfl⟩))⟩
      · rw [hLocals hEq] at hEndedJ
        refine ⟨hEndedJ, fun hBegun => ?_⟩
        show (Function.update c.locals id l j).headers.isSome ∨
          Spoken (c.log ++ [Happening.serialised id bytes]) j
        rw [hLocals hEq, hSpoken hEq]
        exact hBegun
    speaking := fun _ _ _ _ => hState
    silent := by
      intro j hj
      have hTail : j ∈ c.localObjects.tail := hj
      rw [hFront, List.tail_cons] at hTail
      show ¬ Spoken (c.log ++ [Happening.serialised id bytes]) j
      rw [hSpoken (hFresh hTail)]
      exact h.silent j hj
    ordered := ordered_append h.ordered nofun }

/-- The first transaction of the queue is none of the others. -/
theorem ne_of_mem_rest (h : Orderly mid c) {rest : List Nat} (hFront : c.localObjects = id :: rest)
    {j : Nat} (hj : j ∈ rest) : j ≠ id := by
  rintro rfl
  have hNodup := h.nodup
  rw [hFront] at hNodup
  exact (List.nodup_cons.mp hNodup).1 hj

/-- The log once the end of an object has been serialised. -/
def endLog (log : List Happening) (id : Nat) (bytes : ByteString) : List Happening :=
  log ++ [.serialised id bytes] ++ [.ended id]

/-- The end of the first request is serialised. -/
theorem finish (h : Orderly none c) {rest : List Nat} {e : Encoder} {bytes : ByteString}
    (hFront : c.localObjects = id :: rest) (hDone : (c.locals id).ended = true) :
    Orderly (some id) (({ c with encoder := e }.serialise id bytes).queueFeedback id) := by
  have hOpened : id < c.opened := h.opened id (by rw [hFront]; exact List.mem_cons_self)
  have hCount : ∀ j, (endLog c.log id bytes).count (.ended j) =
      c.log.count (.ended j) + if id = j then 1 else 0 := by
    intro j
    rw [endLog, List.count_append, count_append_of_not_counts rfl rfl]
    simp [List.count_singleton]
  have hRemoved : ∀ j, (endLog c.log id bytes).count (.removed j) =
      c.log.count (.removed j) := by
    intro j
    rw [endLog, List.count_append, count_append_of_not_counts rfl rfl]
    simp
  have hOther : ∀ {j}, some id ≠ some j → id ≠ j := fun hMid hEq => hMid (congrArg some hEq)
  have hSpoken : ∀ {j}, j ≠ id →
      (Spoken (endLog c.log id bytes) j ↔ Spoken c.log j) := by
    intro j hj
    rw [endLog, spoken_append, spoken_append, or_assoc]
    apply or_iff_left
    rintro (⟨bytes', hEq⟩ | ⟨bytes', hEq⟩)
    · cases hEq
      exact hj rfl
    · cases hEq
  -- the requests behind the first one are the ones of which something is left to say
  have hRest : ∀ {j}, j ∈ c.localObjects → some id ≠ some j → j ∈ rest := by
    intro j hj hMid
    rw [hFront] at hj
    exact (List.mem_cons.mp hj).resolve_left (hOther hMid).symm
  exact
  { h with
    front := by
      intro j hj
      cases hj
      show c.localObjects.head? = some id
      rw [hFront, List.head?_cons]
    counted := by
      intro j
      show (endLog c.log id bytes).count (.ended j) =
        (endLog c.log id bytes).count (.removed j) + _
      rw [hCount, hRemoved, h.counted j]
      simp
    waiting := by
      intro j hj hMid
      show (endLog c.log id bytes).count (.ended j) = 0
      rw [hCount, if_neg (hOther hMid), h.waiting j hj nofun]
    once := by
      intro j
      show (endLog c.log id bytes).count (.ended j) ≤ 1
      rw [hCount]
      split
      case isTrue hEq =>
        subst hEq
        rw [h.waiting id (by rw [hFront]; exact List.mem_cons_self) nofun]
      case isFalse => exact h.once j
    fresh := by
      intro j hj
      have hNe : j ≠ id := by
        rintro rfl
        exact absurd hOpened (Nat.not_lt.mpr hj)
      show (endLog c.log id bytes).count (.ended j) = 0 ∧
        ¬ Spoken (endLog c.log id bytes) j ∧ _
      rw [hCount, if_neg hNe.symm, hSpoken hNe]
      exact h.fresh j hj
    gone := by
      intro j hj hGone
      show (endLog c.log id bytes).count (.ended j) = 1 ∨ _
      have hNe : id ≠ j := by
        rintro rfl
        apply hGone
        show id ∈ c.localObjects
        rw [hFront]
        exact List.mem_cons_self
      rw [hCount, if_neg hNe]
      exact h.gone j hj hGone
    begun := by
      have hQueue : EndsBegun c.locals c.log (id :: rest) := hFront ▸ h.begun
      show EndsBegun c.locals (endLog c.log id bytes) c.localObjects.tail
      rw [hFront, List.tail_cons]
      exact (hQueue hDone).2.mono fun j hj hEndedJ =>
        ⟨hEndedJ, fun hBegun => hBegun.imp_right (hSpoken (h.ne_of_mem_rest hFront hj)).mpr⟩
    speaking := by
      intro j hj hMid hSpeaks
      have hSpeaks : Spoken (endLog c.log id bytes) j := hSpeaks
      rw [hSpoken (hOther hMid).symm] at hSpeaks
      exact absurd hSpeaks (h.silent j (by rw [hFront]; exact hRest hj hMid))
    silent := by
      intro j hj
      have hTail : j ∈ c.localObjects.tail := hj
      rw [hFront, List.tail_cons] at hTail
      show ¬ Spoken (endLog c.log id bytes) j
      rw [hSpoken (h.ne_of_mem_rest hFront hTail)]
      exact h.silent j hj
    ordered := ordered_append (ordered_append h.ordered nofun) nofun }

/-- The first request, whose end has been serialised, is removed. -/
theorem removed (h : Orderly (some id) c) (hRun : c.popFront = .ok c') : Orderly none c' := by
  obtain ⟨first, rest, hFront, rfl⟩ := popFront_ok.mp hRun
  have hFirst : first = id := by simpa [hFront] using h.front id rfl
  subst hFirst
  have hOther : ∀ {j}, j ∈ rest → some first ≠ some j := by
    intro j hj hEq
    exact h.ne_of_mem_rest hFront hj (Option.some.inj hEq).symm
  have hMem : ∀ {j}, j ∈ rest → j ∈ c.localObjects := by
    intro j hj
    rw [hFront]
    exact List.mem_cons_of_mem _ hj
  have hEnded : ∀ j, (c.log ++ [Happening.removed first]).count (.ended j) = c.log.count (.ended j) := by
    intro j
    simp [List.count_append]
  have hRemoved : ∀ j, (c.log ++ [Happening.removed first]).count (.removed j) =
      c.log.count (.removed j) + if first = j then 1 else 0 := by
    intro j
    simp [List.count_append, List.count_singleton]
  have hSpoken : ∀ j, Spoken (c.log ++ [Happening.removed first]) j ↔ Spoken c.log j := by
    intro j
    rw [spoken_append]
    exact or_iff_left nofun
  have hCounted := h.counted
  have hTail : c.localObjects.tail = rest := by rw [hFront, List.tail_cons]
  exact
  { h with
    nodup := hTail ▸ h.nodup.tail
    opened := fun j hj => h.opened j (hMem hj)
    front := nofun
    counted := by
      intro j
      show (c.log ++ [Happening.removed first]).count (.ended j) = (c.log ++ [Happening.removed first]).count (.removed j) + _
      rw [hEnded, hRemoved, hCounted j]
      simp
    waiting := by
      intro j hj _
      show (c.log ++ [Happening.removed first]).count (.ended j) = 0
      rw [hEnded]
      exact h.waiting j (hMem hj) (hOther hj)
    once := by
      intro j
      show (c.log ++ [Happening.removed first]).count (.ended j) ≤ 1
      rw [hEnded]
      exact h.once j
    fresh := by
      intro j hj
      show (c.log ++ [Happening.removed first]).count (.ended j) = 0 ∧ ¬ Spoken (c.log ++ [Happening.removed first]) j ∧ _
      rw [hEnded, hSpoken]
      exact h.fresh j hj
    gone := by
      intro j hj hGone
      show (c.log ++ [Happening.removed first]).count (.ended j) = 1 ∨ _
      rw [hEnded]
      by_cases hEq : first = j
      · left
        have hOne := hCounted j
        rw [if_pos (congrArg some hEq)] at hOne
        have hOnce := h.once j
        omega
      · apply h.gone j hj
        rw [hFront]
        exact fun hIn => (List.mem_cons.mp hIn).elim (fun h => hEq h.symm) hGone
    begun := by
      have hQueue : EndsBegun c.locals c.log rest := hTail ▸ h.begun
      exact hQueue.mono fun j _ hEndedJ => ⟨hEndedJ, fun hBegun => hBegun.imp_right (hSpoken j).mpr⟩
    speaking := by
      intro j hj _ hSpeaks
      have hSpeaks : Spoken c.log j := (hSpoken j).mp hSpeaks
      exact absurd hSpeaks (h.silent j (by rw [hTail]; exact hj))
    silent := by
      intro j hj
      show ¬ Spoken (c.log ++ [Happening.removed first]) j
      rw [hSpoken]
      exact h.silent j (by rw [hTail]; exact List.mem_of_mem_tail hj)
    ordered := by
      apply ordered_append h.ordered
      rintro j hj
      cases hj
      apply List.count_pos_iff.mp
      rw [hCounted, if_pos rfl]
      exact Nat.succ_pos _ }

/-- A new request goes to the end of the queue. -/
theorem opens (h : Orderly mid c) : Orderly mid c.getUserHandlers := by
  rw [getUserHandlers]
  split
  · exact h
  have hFresh := h.fresh c.opened le_rfl
  have hQueue : ∀ {j}, j ∈ c.localObjects ++ [c.opened] → j ∈ c.localObjects ∨ j = c.opened := by
    intro j hj
    exact (List.mem_append.mp hj).imp_right List.mem_singleton.mp
  exact
  { h with
    nodup := Queued.nodup_concat h.nodup h.opened
    opened := Queued.lt_succ_of_mem_concat h.opened
    front := by
      intro j hj
      have hHead := h.front j hj
      show (c.localObjects ++ [c.opened]).head? = some j
      rw [List.head?_append, hHead, Option.some_or]
    waiting := by
      intro j hj hMid
      rcases hQueue hj with hj | rfl
      · exact h.waiting j hj hMid
      · exact hFresh.1
    fresh := fun j hj => h.fresh j (Nat.le_of_succ_le hj)
    gone := by
      intro j hj hGone
      have hOld : j ∉ c.localObjects := fun hIn => hGone (List.mem_append_left _ hIn)
      have hLast : j ≠ c.opened := by
        rintro rfl
        exact hGone (by simp)
      exact h.gone j (by have : j < c.opened + 1 := hj; omega) hOld
    begun := by
      have hAhead : ahead mid (c.localObjects ++ [c.opened]) = ahead mid c.localObjects ++ [c.opened] := by
        cases mid with
        | none => rfl
        | some id =>
            cases hLocals : c.localObjects with
            | nil =>
                have hHead := h.front id rfl
                rw [hLocals] at hHead
                cases hHead
            | cons first rest => rfl
      show EndsBegun c.locals c.log (ahead mid (c.localObjects ++ [c.opened]))
      rw [hAhead]
      exact h.begun.concat hFresh.2.2
    speaking := by
      intro j hj hMid hSpeaks
      rcases hQueue hj with hj | rfl
      · exact h.speaking j hj hMid hSpeaks
      · exact absurd hSpeaks hFresh.2.1
    silent := by
      intro j hj
      cases hLocals : c.localObjects with
      | nil => simp [hLocals] at hj
      | cons first rest =>
          have hj : j ∈ rest ++ [c.opened] := by simpa [hLocals] using hj
          rcases List.mem_append.mp hj with hj | hj
          · exact h.silent j (by rw [hLocals]; exact hj)
          · rw [List.mem_singleton.mp hj]
            exact hFresh.2.1 }

/-- A request that is told something neither ends nor loses its headers. -/
theorem told (h : Orderly mid c) {l : Local}
    (hEnded : l.ended = ((c.locals id).ended || c.role = .server))
    (hContinue : l.continueRequired = (c.locals id).continueRequired)
    (hHeaders : l.headers = (c.locals id).headers) : Orderly mid (c.setLocal id l) := by
  have hSame : l.ended = (c.locals id).ended := by simpa [h.client] using hEnded
  apply h.frame (d := c.setLocal id l) rfl rfl rfl rfl rfl (fun p hp => .inl hp) _ fun hBroken => hBroken
  intro j
  by_cases hj : j = id
  · subst hj
    rw [setLocal_locals_self, hHeaders]
    exact ⟨hSame, hContinue, fun some => some⟩
  · rw [setLocal_locals_of_ne hj]
    exact ⟨rfl, rfl, fun some => some⟩

/-- The queues are cleared, because the connection is closed or has failed. -/
theorem clear (h : Orderly none c) (errors : List ErrorCode)
    (hBroken : c.userClose = true ∨ errors ≠ []) :
    Orderly none { c with remoteObjects := [], localObjects := [], errors := errors } :=
  { h with
    nodup := List.nodup_nil
    opened := nofun
    front := nofun
    waiting := nofun
    gone := fun _ _ _ => .inr hBroken
    begun := trivial
    speaking := nofun
    silent := nofun }

theorem remote (mid : Option Nat) : RemoteStable (Orderly mid) where
  setRemote _ _ _ h := { h with }
  shows _ m _ h := { h.record (e := .received m true) rfl nofun with }
  postEnd id h :=
    { h with
      noEnd := by
        intro p hp
        rcases List.mem_append.mp hp with hp | hp
        · exact h.noEnd p hp
        · rw [List.mem_singleton.mp hp]
          rfl }
  error e h :=
    { h with
      gone := by
        intro id hId hGone
        exact (h.gone id hId hGone).imp_right fun _ => .inr (by simp [Http1.error]) }
  flags _ _ h := { h with }
  received m taken h := { h.record (e := .received m taken) rfl nofun with }
  remoteTail h := { h with }

/-- A closure is taken, or one that ends no response is posted. -/
theorem reposted (h : Orderly mid c) (ps : List Posted)
    (hPosted : ∀ p ∈ ps, p ∈ c.posted ∨ p.ends = false) : Orderly mid { c with posted := ps } :=
  { h with noEnd := fun p hp => (hPosted p hp).elim (h.noEnd p) fun hEnds => hEnds }

theorem called (h : Orderly mid c) (id : Nat) : Orderly mid (c.post [.callback id]) := by
  apply h.reposted
  intro p hp
  rcases List.mem_append.mp hp with hp | hp
  · exact .inl hp
  · rw [List.mem_singleton.mp hp]
    exact .inr rfl

theorem localError (h : Orderly mid c) (e : ErrorCode) (id : Nat) :
    Orderly mid (c.localError e id) := by
  rw [Http1.localError]
  split
  · refine called ?_ id
    apply h.told
    · rfl
    · rfl
    · rfl
  · apply h.told
    · rfl
    · rfl
    · rfl

theorem localCleared (h : Orderly mid c) (id : Nat) : Orderly mid (c.localCleared id) := by
  rw [Http1.localCleared]
  split
  · refine called ?_ id
    apply h.told
    · rfl
    · rfl
    · rfl
  · apply h.told
    · rfl
    · rfl
    · rfl

/-- Everybody is told of an error, and the queues are cleared. -/
theorem notifyAll (h : Orderly none c) (e : ErrorCode) (errors : List ErrorCode)
    (hBroken : c.userClose = true ∨ errors ≠ []) :
    Orderly none { c.notifyAll e with errors := errors } := by
  have hLocal : ∀ c id, Orderly none c →
      Orderly none (if c.alive id then c.localError e id else c) := by
    intro c id hc
    split
    · exact hc.localError e id
    · exact hc
  have hRemote := Steady.foldl (fun c id hc => (remote none).remoteEnd id (.error e) rfl hc)
    c.remoteObjects h
  rw [← notifyAll_userClose c e] at hBroken
  exact (Steady.foldl hLocal _ hRemote).clear errors hBroken

/-- A request ends, and no request without headers is thereby the next one to be polled. -/
theorem ends (h : Orderly none c)
    (hBegun : EndsBegun (c.setLocal id { c.locals id with ended := true }).locals c.log c.localObjects)
    (hOpened : id < c.opened) :
    Orderly none (c.setLocal id { c.locals id with ended := true }) :=
  { h with
    noContinue := by
      intro j
      by_cases hj : j = id
      · subst hj
        rw [setLocal_locals_self]
        exact h.noContinue j
      · rw [setLocal_locals_of_ne hj]
        exact h.noContinue j
    fresh := by
      intro j hId
      have hj : j ≠ id := by
        rintro rfl
        exact absurd hOpened (Nat.not_lt.mpr hId)
      rw [setLocal_locals_of_ne hj]
      exact h.fresh j hId
    begun := hBegun }

end Orderly

/-- When a request is ended, those that are then polled to their end, which are the ended ones at
the front of the queue, have been given their headers; and no decoding failure strikes a request
that is being answered. -/
def OrderlyStep (c : Http1) : Op → Prop
  | .user (.finish id) =>
      c.usable id = true →
        EndsBegun (c.setLocal id { c.locals id with ended := true }).locals c.log c.localObjects
  | .decodingFailure => c.getCurrent.1 = none
  | _ => True

theorem usable_opened {c : Http1} {id : Nat} (h : c.usable id = true) : id < c.opened := by
  simp only [usable, Bool.and_eq_true, decide_eq_true_eq] at h
  exact h.1

theorem Orderly.not_server {mid : Option Nat} {c : Http1} (h : Orderly mid c) : c.role ≠ .server := by
  rw [h.client]
  nofun

/-- What the functions of a connection do to the queue of a client. -/
theorem Orderly.kept : Kept (Orderly none) (fun id => Orderly (some id)) OrderlyStep where
  edit hEdit h := h.edit hEdit
  create _ _ h := h.opens
  ends hGuard hUsable _ h := h.ends (hGuard hUsable) (usable_opened hUsable)
  continues hServer h := absurd hServer h.not_server
  postEnd _ hServer h := absurd hServer h.not_server
  runEnd hPosted h := by
    have hEnds := h.noEnd _ (by rw [hPosted]; exact List.mem_cons_self)
    cases hEnds
  ran h := { h with }
  close {c} _ h := by
    have hClosed : Orderly none { c with userClose := true } :=
      { h with gone := fun id hId hGone => (h.gone id hId hGone).imp_right fun _ => .inl rfl }
    rw [Http1.close]
    dsimp only
    split
    · exact Orderly.notifyAll (c := Http1.stop { c with userClose := true }) { hClosed with } .connectionClosed _ (.inl rfl)
    · exact hClosed.notifyAll .connectionClosed _ (.inl rfl)
  persistentSet b h := { h.record (e := .persistentSet b) rfl nofun with }
  headers {c c' id rest m} hFront _ h hRun := by
    obtain ⟨bytes, encoder, hEncode, rfl⟩ := notifyLocalHeaders_ok.mp hRun
    have hSent : Orderly none (c.record (.sent m.data)) := h.record rfl nofun
    have hState : encoder.state ≠ .ZERO := by
      rw [Encoder.encodeHeader_state hEncode]
      nofun
    have hSpeaks := @Orderly.speaks _ _ hSent _ { c.locals id with headers := none } _ bytes
      hFront hState rfl rfl
    exact Orderly.doWrite { hSpeaks with }
  body {c c' id rest} hFront h hRun := by
    obtain ⟨bytes, encoder, hEncode, rfl⟩ := notifyLocalBody_ok.mp hRun
    have hState : encoder.state ≠ .ZERO := by
      rw [Encoder.encodeBody_state hEncode]
      nofun
    apply Orderly.doWrite
    apply h.speaks hFront hState
    · rfl
    · rfl
  trailer hFront h hRun := by
    obtain ⟨bytes, encoder, hEncode, rfl⟩ := notifyLocalTrailer_ok.mp hRun
    have hState : encoder.state ≠ .ZERO := by
      rw [Encoder.encodeTrailer_state hEncode]
      nofun
    apply Orderly.doWrite
    apply h.speaks hFront hState
    · rfl
    · rfl
  finish hFront hState h hRun := by
    obtain ⟨bytes, encoder, -, rfl⟩ := notifyLocalEnd_ok.mp hRun
    exact (h.finish hFront hState.2.2.2).doWrite
  interim _ hContinue h _ := by
    rw [h.noContinue] at hContinue
    cases hContinue
  removed h hRun := h.removed hRun
  expired {c id rest} _ _ h := by
    have hError := (Orderly.remote none).error .missingStreamElement h
    have hBroken : (c.error .missingStreamElement).errors ≠ [] := by simp [Http1.error]
    have hAll := hError.notifyAll .missingStreamElement _ (.inr hBroken)
    rw [← notifyAll_errors] at hAll
    exact hAll
  cleared hPosted h := by
    refine (h.reposted _ ?_).localCleared _
    intro p hp
    rw [hPosted]
    exact .inl (List.mem_cons_of_mem _ hp)
  failed hPosted h := by
    refine (h.reposted _ ?_).localError _ _
    intro p hp
    rw [hPosted]
    exact .inl (List.mem_cons_of_mem _ hp)
  remoteEnded hPosted h := by
    refine (Orderly.remote none).setRemote _ _ (fun _ hShown => hShown) (h.reposted _ ?_)
    intro p hp
    rw [hPosted]
    exact .inl (List.mem_cons_of_mem _ hp)
  called hPosted h := by
    apply h.reposted
    intro p hp
    rw [hPosted]
    exact .inl (List.mem_cons_of_mem _ hp)
  decodingStart {c} _ h := by
    have hFlags := (Orderly.remote none).flags false false h
    rw [Http1.decodingStart]
    dsimp only
    split
    · exact hFlags.opens
    · exact hFlags
  decodedHeaders garbage m h := (Orderly.remote none).decodedHeaders garbage m h
  decodedBody bytes h := (Orderly.remote none).decodedBody bytes h
  decodedTrailer key value h := (Orderly.remote none).decodedTrailer key value h
  decodingEnd h := (Orderly.remote none).decodingEnd h
  decodingFailure {c c'} hGuard h hRun := by
    have hCurrent := (Orderly.remote none).getCurrent h
    rcases hEq : c.getCurrent with ⟨current, d⟩
    rw [hEq] at hCurrent
    have hNone : current = none := by simpa [OrderlyStep, hEq] using hGuard
    subst hNone
    rw [Http1.decodingFailure, hEq] at hRun
    cases hRun
    exact hCurrent
  written {c} r _ h := by
    apply h.frame (written_role c r) (written_localObjects c r) (written_opened c r)
      (written_encoder c r) (written_log c r)
    · intro p hp
      rcases written_posted hp with hp | ⟨f, success, rfl⟩
      · exact .inl hp
      · exact .inr rfl
    · intro id
      rw [written_locals]
      exact ⟨rfl, rfl, fun some => some⟩
    · rw [Broken, Broken, written_userClose, written_errors]
      exact id
  stop h := { h with }
  lost {c} _ h := by
    have hLost : Orderly none { c with connected := false } := { h with }
    rw [loseConnector, onConnectorNulled]
    split
    · exact hLost
    · have hAll := hLost.notifyAll .closedByClient
        (({ c with connected := false }.notifyAll .closedByClient).errors ++ [.closedByClient])
        (.inr (by simp))
      have hTold := Steady.foldl (P := Orderly none) (fun c f hc => hc.localError .missingStreamElement f.id)
        (({ c with connected := false }.notifyAll .closedByClient).error
          .closedByClient).pendingClearCallbacks hAll
      exact { hTold with }

/-- The two faults of the queue: the end of a message encoded twice, or nothing to remove. -/
def QueueFault (e : Fault) : Prop := e = .emptyList ∨ e = .encoder .eom

theorem Orderly.blamed : Blamed (Orderly none) (fun id => Orderly (some id)) OrderlyStep
    fun e => ¬ QueueFault e where
  exhausted := by simp [QueueFault]
  headers {c id rest m e} _ _ hRun := by
    have hError : ∃ a, c.encoder.encodeHeader m = .error a ∧ e = .encoder a := by
      unfold notifyLocalHeaders at hRun
      split at hRun
      · exact encoded_bind_error hRun
      · exact encoded_bind_error hRun
    obtain ⟨a, hEncode, rfl⟩ := hError
    rcases Encoder.encodeHeader_error hEncode with rfl | rfl
    · simp [QueueFault]
    · simp [QueueFault]
  body _ _ hRun := by
    obtain ⟨a, hEncode, rfl⟩ := encoded_bind_error hRun
    rw [Encoder.encodeBody_error hEncode]
    simp [QueueFault]
  trailer _ _ hRun := by
    obtain ⟨a, hEncode, rfl⟩ := encoded_bind_error hRun
    rw [Encoder.encodeTrailer_error hEncode]
    simp [QueueFault]
  finish {c id rest e} hFront hState h hRun := by
    obtain ⟨a, hEncode, rfl⟩ := encoded_bind_error hRun
    have hQueued : id ∈ c.localObjects := by
      rw [hFront]
      exact List.mem_cons_self
    have hBegun : EndsBegun c.locals c.log (id :: rest) := hFront ▸ h.begun
    have hSpoken : Spoken c.log id := by
      rcases (hBegun hState.2.2.2).1 with hHeaders | hSpoken
      · rw [hState.1] at hHeaders
        cases hHeaders
      · exact hSpoken
    exact absurd (Encoder.encodeEom_error hEncode) (h.speaking id hQueued nofun hSpoken)
  interim _ hContinue h _ := by
    rw [h.noContinue] at hContinue
    cases hContinue
  removed {c id e} h hRun := by
    have hFront := h.front id rfl
    unfold popFront at hRun
    split at hRun
    case h_1 hNil =>
      rw [hNil] at hFront
      cases hFront
    case h_2 => cases hRun
  decodingFailure {c e} hGuard _ hRun := by
    rcases hEq : c.getCurrent with ⟨current, d⟩
    have hNone : current = none := by simpa [OrderlyStep, hEq] using hGuard
    subst hNone
    rw [Http1.decodingFailure, hEq] at hRun
    cases hRun

end Http1

end Doormat.Protocol
