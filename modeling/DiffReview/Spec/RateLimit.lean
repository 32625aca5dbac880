import DiffReview.Spec.Errors

/-!
# DiffReview — the submission rate limit

`app/core/rate_limit.py`, with the clock as an argument and exact time. `consume` keeps its
lock to the end, so calls run one after the other. A rejected call has pruned the deque
too.
-/

namespace DiffReview

open Py

structure SlidingWindowRateLimiter where
  limit : Int
  windowSeconds : ℚ
  timestamps : List ℚ
deriving DecidableEq

namespace SlidingWindowRateLimiter

/-- `__init__` -/
def new (limit : Int) (windowSeconds : ℚ) : SlidingWindowRateLimiter := ⟨limit, windowSeconds, []⟩

/-- The `while` loop: the requests outside the rolling window are removed. -/
def prune (rl : SlidingWindowRateLimiter) (now : ℚ) : SlidingWindowRateLimiter :=
  { rl with timestamps := rl.timestamps.dropWhile fun t => t ≤ now - rl.windowSeconds }

def retryAfter (rl : SlidingWindowRateLimiter) (now oldest : ℚ) : Int :=
  max 1 ⌈rl.windowSeconds - (now - oldest)⌉

/-- The error of a rejected call. The header is `str` of an integer far below its digit limit. -/
def rateLimited (retryAfter : Int) : ApiError :=
  ⟨429, lit "rate_limited", lit "The submission rate limit has been exceeded.",
    [(lit "Retry-After", decimal retryAfter.toNat)]⟩

def consume (rl : SlidingWindowRateLimiter) (now : ℚ) :
    Except Raised Unit × SlidingWindowRateLimiter :=
  let rl := rl.prune now
  if rl.timestamps.length < rl.limit then (.ok (), { rl with timestamps := rl.timestamps ++ [now] })
  else match rl.timestamps with
    | oldest :: _ => (.error (.api (rateLimited (rl.retryAfter now oldest))), rl)
    -- `self.timestamps[0]` of an empty deque
    | [] => (.error .unhandled, rl)

/-- The limiter after a call at each of `times`. -/
def after (rl : SlidingWindowRateLimiter) (times : List ℚ) : SlidingWindowRateLimiter :=
  times.foldl (fun rl now => (rl.consume now).2) rl

/-- The times of the accepted calls among them. -/
def accepted (rl : SlidingWindowRateLimiter) : List ℚ → List ℚ
  | [] => []
  | now :: times =>
    if (rl.consume now).1 = .ok () then now :: (rl.consume now).2.accepted times
    else (rl.consume now).2.accepted times

end SlidingWindowRateLimiter

end DiffReview
