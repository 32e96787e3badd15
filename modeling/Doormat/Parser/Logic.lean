import Doormat.Parser.Stream

/-! A logic of steps. Whoever listens to the callbacks gathers something from them;
the logic reasons about what would have been gathered if the buffer ended here, so
that its rules do not see where the buffers end. -/
namespace Doormat.Parser

open Bytes

variable {α : Type}

/-- What a listener does at each callback. A data callback is a start and then one
byte after the other. -/
structure Gatherer (α : Type) where
  start : Mark → α → α
  extend : Mark → UInt8 → α → α
  notify : Fields → Notification → α → α
  headersComplete : Fields → α → α
  messageComplete : α → α

namespace Gatherer

variable (G : Gatherer α)

def data (m : Mark) (bytes : ByteString) (a : α) : α :=
  bytes.foldl (fun a ch => G.extend m ch a) (G.start m a)

def next (a : α) : Callback → α
  | .notify p c => G.notify p c a
  | .data _ m bytes => G.data m bytes a
  | .headersComplete p => G.headersComplete p a
  | .messageComplete => G.messageComplete a

/-- What is gathered once the marked bytes are handed over. -/
def ahead (a : α) : Option (Mark × ByteString) → α
  | none => a
  | some (m, bytes) => G.data m bytes a

@[simp] theorem ahead_none (a : α) : G.ahead a none = a := rfl

@[simp] theorem ahead_nil (a : α) (m : Mark) : G.ahead a (some (m, [])) = G.start m a := rfl

@[simp] theorem data_concat (m : Mark) (bytes : ByteString) (ch : UInt8) (a : α) :
    G.data m (bytes ++ [ch]) a = G.extend m ch (G.data m bytes a) := by
  simp [data]

/-- The same for the marked bytes after one more. -/
theorem ahead_concat (a : α) (marked : Option (Mark × ByteString)) (ch : UInt8) :
    G.ahead a (marked.map fun m => (m.1, m.2 ++ [ch])) =
      (marked.map Prod.fst).elim (G.ahead a marked) (fun m => G.extend m ch (G.ahead a marked)) := by
  rcases marked with _ | ⟨m, bytes⟩
  · rfl
  · exact G.data_concat m bytes ch a

end Gatherer

/-- What has to hold before a step, with the mark `cur` set and `v` gathered ahead, so
that everything gathered on the way is `good`, and `post` holds wherever the step goes
on: of the parser, the loop, the mark and what is gathered. A step that ends in an
error may do so. -/
def Prog.wp (G : Gatherer α) (good : α → Prop) (ch : UInt8)
    (post : Fields → Loop → Option Mark → α → Prop) : Prog → Option Mark → α → Prop
  | .next p loop, cur, v => post p loop cur (cur.elim v fun m => G.extend m ch v)
  | .leave p, cur, v => cur = none ∧ post p .outer none v
  | .fail _ _, _, _ => True
  | .abort, _, _ => True
  | .mark m k, cur, v => k.wp G good ch post (some (cur.getD m)) (cur.elim (G.start m v) fun _ => v)
  | .data _ m inclusive _ k, cur, v =>
      if cur = some m then
        let v := if inclusive then G.extend m ch v else v
        good v ∧ k.wp G good ch post none v
      else k.wp G good ch post cur v
  | .count _ _ k, cur, v => k.wp G good ch post cur v
  | .clearNread k, cur, v => k.wp G good ch post cur v
  | .assertNread _ k, cur, v => k.wp G good ch post cur v
  | .notify p c _ k, cur, v =>
      cur = none ∧ good (G.notify p c v) ∧ k.wp G good ch post none (G.notify p c v)
  | .headersComplete p k, cur, v =>
      cur = none ∧ good (G.headersComplete p v) ∧
        (k 0).wp G good ch post none (G.headersComplete p v)
  | .messageComplete _ k, cur, v =>
      cur = none ∧ good (G.messageComplete v) ∧
        (k (HttpParser.init .both).toFields).wp G good ch post none (G.messageComplete v)

variable {G : Gatherer α} {good good' : α → Prop} {ch : UInt8}
  {post post' : Fields → Loop → Option Mark → α → Prop}

theorem Prog.wp_and {prog : Prog} {cur : Option Mark} {v : α}
    (h : prog.wp G good ch post cur v) (h' : prog.wp G good' ch post' cur v) :
    prog.wp G (fun v => good v ∧ good' v) ch
      (fun p loop cur v => post p loop cur v ∧ post' p loop cur v) cur v := by
  induction prog generalizing cur v with
  | next p loop => exact ⟨h, h'⟩
  | leave p => exact ⟨h.1, h.2, h'.2⟩
  | fail p e => trivial
  | abort => trivial
  | mark m k ih => exact ih h h'
  | data p m inclusive advance k ih =>
      simp only [Prog.wp] at h h' ⊢
      by_cases hm : cur = some m
      · rw [if_pos hm] at h h' ⊢
        exact ⟨⟨h.1, h'.1⟩, ih h.2 h'.2⟩
      · rw [if_neg hm] at h h' ⊢
        exact ih h h'
  | count p v k ih => exact ih h h'
  | clearNread k ih => exact ih h h'
  | assertNread v k ih => exact ih h h'
  | notify p c advance k ih => exact ⟨h.1, ⟨h.2.1, h'.2.1⟩, ih h.2.2 h'.2.2⟩
  | headersComplete p k ih => exact ⟨h.1, ⟨h.2.1, h'.2.1⟩, ih 0 h.2.2 h'.2.2⟩
  | messageComplete p k ih => exact ⟨h.1, ⟨h.2.1, h'.2.1⟩, ih _ h.2.2 h'.2.2⟩

end Doormat.Parser
