import ArcMiner.Gr.GrSolo
import ArcMiner.Library.Machine

/-! The solo loops of `GrSolo` and `RxAlgo`: which template the threads work on.

A step is one fetch. A loop that is left, by an exception or at the end of an epoch, takes no further step.
`RxAlgo.MineAsync` begins each epoch with the template it has fetched for it.
-/

namespace ArcMiner.Solo

open Library Library.CSharp Library.Machine Option
open Gr.GrSolo (Work)

/-- What the loop remembers, and what the box of the threads holds. -/
structure Board (ω : Type) where
  curHeight : Int
  box : Option ω

section board
variable {ω : Type} (height : ω → Int)

def Board.publish (work : ω) : Board ω := ⟨height work, some work⟩

def Board.refresh (board : Board ω) (work : ω) : Board ω :=
  if height work ≠ board.curHeight then .publish height work else board

/-- Between the first template and the next one the box holds one that is as high as remembered. -/
theorem Board.refresh_publish {π : Type} (prev : ω → π) (held work : ω) :
    ∃ next, (publish height held).refresh height work = publish height next ∧
      (prev next = prev work ↔ (height held = height work → prev held = prev work)) := by
  unfold refresh
  split
  · next other => exact ⟨work, rfl, iff_of_true rfl fun same => absurd same.symm other⟩
  · next same => exact ⟨held, rfl, by simp [(not_not.mp same : height work = height held)]⟩

end board

def isUnsupportedChain : Exception → Bool
  | .application type _ _ => type = "UnsupportedChainException"
  | _ => false

def grPoll (board : Board Work) : Result Work → Option (Board Work)
  | .ok work => some (board.refresh Work.height work)
  | .error why => if isUnsupportedChain why then none else some board

structure RxJobData where
  hashingBlob : List UInt8
  templateBlob : List UInt8
  difficulty : UInt64
  height : Int
  prevHash : String
  seedHash : List UInt8

def rxPoll (seed : List UInt8) (board : Board RxJobData) : Result RxJobData → Option (Board RxJobData)
  | .ok next => if next.seedHash ≠ seed then none else some (board.refresh RxJobData.height next)
  | .error _ => some board

theorem grPoll_board {fetches : List (Result Work)} {board : Board Work} (ran : run grPoll ⟨-1, none⟩ fetches = some board) :
    board = ⟨-1, none⟩ ∨ ∃ held, board = .publish Work.height held := by
  refine run_history (motive := fun _ board => board = ⟨-1, none⟩ ∨ ∃ held, board = .publish Work.height held)
    (.inl rfl) (fun {_ fetched board next} known polled => ?_) ran
  cases fetched with
  | error why =>
    obtain ⟨-, ⟨⟩⟩ := ite_none_left_eq_some.mp polled
    exact known
  | ok work =>
    cases polled
    rcases known with rfl | ⟨held, rfl⟩
    · unfold Board.refresh
      split
      · exact .inr ⟨work, rfl⟩
      · exact .inl rfl
    · obtain ⟨next, same, -⟩ := Board.refresh_publish Work.height Work.prevInternal held work
      exact .inr ⟨next, same⟩

theorem rxPoll_board {first : RxJobData} {fetches : List (Result RxJobData)} {board : Board RxJobData}
    (ran : run (rxPoll first.seedHash) (.publish RxJobData.height first) fetches = some board) :
    ∃ held, board = .publish RxJobData.height held := by
  refine run_history (motive := fun _ board => ∃ held, board = .publish RxJobData.height held) ⟨first, rfl⟩
    (fun {_ fetched board next} known polled => ?_) ran
  cases fetched with
  | error why =>
    cases polled
    exact known
  | ok job =>
    obtain ⟨held, rfl⟩ := known
    obtain ⟨-, ⟨⟩⟩ := ite_none_left_eq_some.mp polled
    obtain ⟨next, same, -⟩ := Board.refresh_publish RxJobData.height RxJobData.prevHash held job
    exact ⟨next, same⟩

/-- After a template the box extends its previous block, unless it held work of the same height that extends another. -/
theorem solo_work_follows_iff (work : Work) (first job : RxJobData) :
    (∀ fetches before, run grPoll ⟨-1, none⟩ fetches = some before → work.height ≠ -1 →
      ∃ after held, grPoll before (.ok work) = some after ∧ after.box = some held ∧
        (held.prevInternal = work.prevInternal ↔
          ∀ old ∈ before.box, old.height = work.height → old.prevInternal = work.prevInternal)) ∧
    ∀ fetches before after, run (rxPoll first.seedHash) (.publish RxJobData.height first) fetches = some before →
      rxPoll first.seedHash before (.ok job) = some after →
        ∃ held, after.box = some held ∧ (held.prevHash = job.prevHash ↔
          ∀ old ∈ before.box, old.height = job.height → old.prevHash = job.prevHash) := by
  constructor
  · intro fetches before ran known
    rcases grPoll_board ran with rfl | ⟨held, rfl⟩
    · exact ⟨_, work, rfl, by rw [Board.refresh, if_pos known]; rfl, by simp⟩
    · obtain ⟨next, same, follows⟩ := Board.refresh_publish Work.height Work.prevInternal held work
      exact ⟨_, next, rfl, by rw [same]; rfl, by simpa [Board.publish] using follows⟩
  · intro fetches before after ran polled
    obtain ⟨held, rfl⟩ := rxPoll_board ran
    obtain ⟨-, ⟨⟩⟩ := ite_none_left_eq_some.mp polled
    obtain ⟨next, same, follows⟩ := Board.refresh_publish RxJobData.height RxJobData.prevHash held job
    exact ⟨next, by rw [same]; rfl, by simpa [Board.publish] using follows⟩

def workOn (prev : UInt8) : Work := ⟨2, List.replicate 32 prev, 0, 0x207FFFFF, 1, [], [], [], 0, Vector.replicate 8 0⟩

def jobOn (prev : String) : RxJobData := ⟨[], [], 1, 1, prev, []⟩

theorem solo_work_follows_repeated : ∃ after held, grPoll (.publish Work.height (workOn 1)) (.ok (workOn 1)) = some after ∧
    after.box = some held ∧ held.prevInternal = (workOn 1).prevInternal := by
  obtain ⟨after, held, polled, box, follows⟩ :=
    (solo_work_follows_iff (workOn 1) (jobOn "1") (jobOn "1")).1 [.ok (workOn 1)] _ rfl (by decide)
  refine ⟨after, held, polled, box, follows.mpr ?_⟩
  rintro _ ⟨⟩ -
  rfl

/-- After a reorganisation at one height both loops go on with the block that was replaced. -/
theorem reorganisation_ignored :
    (run grPoll ⟨-1, none⟩ [.ok (workOn 1), .ok (workOn 2)]).bind Board.box = some (workOn 1) ∧
    (run (rxPoll []) (.publish RxJobData.height (jobOn "1")) [.ok (jobOn "2")]).bind Board.box = some (jobOn "1") ∧
    (workOn 1).prevInternal ≠ (workOn 2).prevInternal ∧ (jobOn "1").prevHash ≠ (jobOn "2").prevHash :=
  ⟨rfl, rfl, by decide, by decide⟩

end ArcMiner.Solo
