import Mathlib.Data.Finset.Card
import Mathlib.Data.List.DropRight
import Mathlib.Data.List.Induction
import LateBinding.Lookup.Cache

namespace LateBinding

namespace LookupCache

/-- What can be done with a cache. -/
inductive Use (τ : Type) where
  | get (id : ClassId) (name : Symbol) (generation : Nat)
  | insert (id : ClassId) (name : Symbol) (generation : Nat) (walk : Walk τ)
  | clear

namespace Use

variable {τ : Type}

def isClear : Use τ → Bool
  | clear => true
  | _ => false

/-- What is put in, if anything. -/
def entry? : Use τ → Option ((ClassId × Symbol) × CachedWalk τ)
  | insert id name generation walk => some ((id, name), ⟨generation, walk⟩)
  | _ => none

end Use

variable {τ : Type}

def use (c : LookupCache τ) : Use τ → LookupCache τ
  | .get id name generation => (c.get id name generation).2
  | .insert id name generation walk => c.insert id name generation walk
  | .clear => c.clear

/-- The cache behind a history. -/
def after (c : LookupCache τ) (us : List (Use τ)) : LookupCache τ := us.foldl use c

/-- The walks that were put in since the cache was last cleared, oldest first, with their keys. -/
def putIn (us : List (Use τ)) : List ((ClassId × Symbol) × CachedWalk τ) :=
  (us.rtakeWhile fun u => !u.isClear).filterMap Use.entry?

/-- The walks that were put in under a key since the cache was last cleared, oldest first. -/
def putInFor (us : List (Use τ)) (key : ClassId × Symbol) : List (CachedWalk τ) :=
  ((putIn us).filter fun e => e.1 = key).map Prod.snd

/-- The greatest stamp for which a walk was put in under a key since the cache was last cleared. -/
def newestStamp? (us : List (Use τ)) (key : ClassId × Symbol) : Option Nat :=
  ((putInFor us key).map CachedWalk.generation).max?

/-- The walk that was put in last under a key for a given stamp since the cache was last cleared. -/
def lastPutIn? (us : List (Use τ)) (key : ClassId × Symbol) (generation : Nat) : Option (Walk τ) :=
  (((putInFor us key).filter fun e => e.generation = generation).getLast?).map CachedWalk.walk

/-- A question to a cache, with all that was done to the cache before. -/
structure Question (τ : Type) where
  before : List (Use τ)
  id : ClassId
  name : Symbol
  generation : Nat

/-- What a question was answered with. -/
def Question.answer? (q : Question τ) : Option (Walk τ) :=
  (((empty : LookupCache τ).after q.before).get q.id q.name q.generation).1

/-- The question that a use is, with what was done before. -/
def Use.question? (before : List (Use τ)) : Use τ → Option (Question τ)
  | .get id name generation => some ⟨before, id, name, generation⟩
  | _ => none

/-- The questions of a history, behind what was done before it. -/
def questionsBehind (before : List (Use τ)) : List (Use τ) → List (Question τ)
  | [] => []
  | u :: us => (u.question? before).toList ++ questionsBehind (before ++ [u]) us

/-- The questions of a history that begins with a new cache. -/
def questions (us : List (Use τ)) : List (Question τ) := questionsBehind [] us

/-- The last one among the walks with the greatest stamp; nothing if there is no walk. -/
inductive Newest : List (CachedWalk τ) → Option (CachedWalk τ) → Prop where
  | nil : Newest [] none
  | amid {earlier later : List (CachedWalk τ)} {kept : CachedWalk τ}
    (hearlier : ∀ e ∈ earlier, e.generation ≤ kept.generation)
    (hlater : ∀ e ∈ later, e.generation < kept.generation) :
    Newest (earlier ++ kept :: later) (some kept)

variable {c : LookupCache τ} {us : List (Use τ)} {ws : List (CachedWalk τ)}
  {kept? : Option (CachedWalk τ)} {kept new : CachedWalk τ} {key : ClassId × Symbol}

theorem after_concat (c : LookupCache τ) (us : List (Use τ)) (u : Use τ) :
    c.after (us ++ [u]) = (c.after us).use u :=
  List.foldl_append

theorem putIn_concat (us : List (Use τ)) (u : Use τ) :
    putIn (us ++ [u]) = if u.isClear then [] else putIn us ++ u.entry?.toList := by
  rw [putIn, List.rtakeWhile_concat]
  cases u <;> simp [Use.isClear, Use.entry?, putIn]

theorem questionsBehind_concat (before us : List (Use τ)) (u : Use τ) :
    questionsBehind before (us ++ [u]) =
      questionsBehind before us ++ (u.question? (before ++ us)).toList := by
  induction us generalizing before with
  | nil => simp [questionsBehind]
  | cons v us ih =>
    simp only [List.cons_append, questionsBehind, ih, List.append_assoc, List.nil_append]

theorem questions_concat (us : List (Use τ)) (u : Use τ) :
    questions (us ++ [u]) = questions us ++ (u.question? us).toList :=
  questionsBehind_concat [] us u

theorem Newest.eq_none_iff (hnewest : Newest ws kept?) : kept? = none ↔ ws = [] := by
  cases hnewest <;> simp

theorem Newest.max?_eq (hnewest : Newest ws kept?) :
    (ws.map CachedWalk.generation).max? = kept?.map CachedWalk.generation := by
  cases hnewest with
  | nil => rfl
  | amid hearlier hlater =>
    rw [Option.map_some, List.max?_eq_some_iff]
    refine ⟨by simp, fun generation hgeneration => ?_⟩
    obtain ⟨e, he, rfl⟩ := List.mem_map.mp hgeneration
    rcases List.mem_append.mp he with he | he
    · exact hearlier e he
    · rcases List.mem_cons.mp he with rfl | he
      · exact Nat.le_refl _
      · exact Nat.le_of_lt (hlater e he)

theorem Newest.getLast?_eq (hnewest : Newest ws (some kept)) :
    (ws.filter fun e => e.generation = kept.generation).getLast? = some kept := by
  cases hnewest with
  | @amid earlier later _ hearlier hlater =>
    have hnone : later.filter (fun e => e.generation = kept.generation) = [] := by
      simp only [List.filter_eq_nil_iff, decide_eq_true_eq]
      exact fun e he => Nat.ne_of_lt (hlater e he)
    simp [List.filter_append, hnone]

/-- A walk that is put in is the newest, unless one with a greater stamp is there. -/
theorem Newest.concat (hnewest : Newest ws kept?) (new : CachedWalk τ) :
    Newest (ws ++ [new])
      (some ((kept?.filter fun kept => new.generation < kept.generation).getD new)) := by
  cases hnewest with
  | nil => exact @Newest.amid τ [] [] new (by simp) (by simp)
  | @amid earlier later kept hearlier hlater =>
    by_cases holder : new.generation < kept.generation
    · simp only [Option.filter_some, holder, decide_true, if_true, Option.getD_some,
        List.append_assoc, List.cons_append]
      refine .amid hearlier fun e he => ?_
      rcases List.mem_append.mp he with he | he
      · exact hlater e he
      · rwa [List.mem_singleton.mp he]
    · simp only [Option.filter_some, holder, decide_false, Bool.false_eq_true, if_false,
        Option.getD_none]
      refine .amid (fun e he => ?_) (by simp)
      have hkept : kept.generation ≤ new.generation := Nat.le_of_not_lt holder
      rcases List.mem_append.mp he with he | he
      · exact (hearlier e he).trans hkept
      · rcases List.mem_cons.mp he with rfl | he
        · exact hkept
        · exact (hlater e he).le.trans hkept

theorem get?_walks_insert (c : LookupCache τ) (id : ClassId) (name : Symbol) (new : CachedWalk τ)
    (key : ClassId × Symbol) :
    (c.insert id name new.generation new.walk).walks.get? key =
      if (id, name) = key then
        some (((c.walks.get? key).filter fun kept => new.generation < kept.generation).getD new)
      else c.walks.get? key := by
  rw [insert]
  by_cases hkey : (id, name) = key
  · subst hkey
    rw [if_pos rfl]
    cases hkept : c.walks.get? (id, name) with
    | none => simp
    | some kept =>
      by_cases holder : new.generation < kept.generation <;>
        simp [Option.filter_some, holder, hkept]
  · rw [if_neg hkey]
    split
    · split
      · rfl
      · simp [hkey]
    · simp [hkey]

/-- A question is answered with the walk that is kept, if it is about its stamp. -/
theorem get_fst_eq (c : LookupCache τ) (id : ClassId) (name : Symbol) (generation : Nat) :
    (c.get id name generation).1 =
      ((c.walks.get? (id, name)).filter fun kept => kept.generation = generation).map
        CachedWalk.walk := by
  rw [get]
  split
  · rename_i kept hkept
    rw [hkept]
    split <;> rename_i hgeneration <;> simp [hgeneration]
  · rename_i hnone
    rw [hnone]
    rfl

/-- A hit is counted if the question is answered. -/
theorem hits_get (c : LookupCache τ) (id : ClassId) (name : Symbol) (generation : Nat) :
    (c.get id name generation).2.hits =
      c.hits + if (c.get id name generation).1.isSome then 1 else 0 := by
  rw [get]
  split
  · split <;> simp
  · simp

/-- An invalidation is counted if the walk that is kept has another stamp. -/
theorem invalidations_get (c : LookupCache τ) (id : ClassId) (name : Symbol) (generation : Nat) :
    (c.get id name generation).2.invalidations =
      c.invalidations +
        if (c.walks.get? (id, name)).any (fun kept => kept.generation ≠ generation) then 1
        else 0 := by
  rw [get]
  split
  · rename_i kept hkept
    rw [hkept]
    split <;> rename_i hgeneration <;> simp [hgeneration]
  · rename_i hnone
    rw [hnone]
    simp

/-- Only questions are counted. -/
theorem counters_insert (c : LookupCache τ) (id : ClassId) (name : Symbol) (generation : Nat)
    (walk : Walk τ) :
    (c.insert id name generation walk).hits = c.hits ∧
      (c.insert id name generation walk).misses = c.misses ∧
        (c.insert id name generation walk).invalidations = c.invalidations := by
  rw [insert]
  split
  · split <;> exact ⟨rfl, rfl, rfl⟩
  · exact ⟨rfl, rfl, rfl⟩

/-- Under every key, the newest of the walks that were put in is kept. -/
theorem newest_after (us : List (Use τ)) (key : ClassId × Symbol) :
    Newest (putInFor us key) (((empty : LookupCache τ).after us).walks.get? key) := by
  induction us using List.reverseRecOn with
  | nil => exact .nil
  | append_singleton us u ih =>
    rw [putInFor, putIn_concat, after_concat]
    cases u with
    | get id name generation =>
      rw [use, walks_get]
      simpa [Use.isClear, Use.entry?, putInFor] using ih
    | insert id name generation walk =>
      rw [use, get?_walks_insert _ id name ⟨generation, walk⟩]
      by_cases hkey : (id, name) = key
      · simpa [Use.isClear, Use.entry?, putInFor, hkey] using ih.concat ⟨generation, walk⟩
      · simpa [Use.isClear, Use.entry?, putInFor, hkey] using ih
    | clear => exact .nil

/-- A walk is kept under every key under which one was put in, and under no other. -/
theorem mem_keys_after (us : List (Use τ)) (key : ClassId × Symbol) :
    key ∈ ((empty : LookupCache τ).after us).walks.keys ↔ key ∈ (putIn us).map Prod.fst := by
  rw [← not_iff_not, ← Table.get?_eq_none_iff, (newest_after us key).eq_none_iff, putInFor]
  simp only [List.map_eq_nil_iff, List.filter_eq_nil_iff, decide_eq_true_eq, List.mem_map,
    not_exists, not_and]

theorem size_after (us : List (Use τ)) :
    ((empty : LookupCache τ).after us).size = ((putIn us).map Prod.fst).toFinset.card := by
  have hkeys : ((putIn us).map Prod.fst).toFinset =
      ((empty : LookupCache τ).after us).walks.keys.toFinset := by
    ext key
    rw [List.mem_toFinset, List.mem_toFinset, mem_keys_after]
  have hnodup : ((empty : LookupCache τ).after us).walks.keys.Nodup :=
    ((empty : LookupCache τ).after us).walks.keys_nodup
  rw [hkeys, List.toFinset_card_of_nodup hnodup, Table.keys, List.length_map, size, Table.size]

/-- The walk that is kept under a key has the greatest stamp for which one was put in. -/
theorem newestStamp?_eq (us : List (Use τ)) (key : ClassId × Symbol) :
    newestStamp? us key =
      (((empty : LookupCache τ).after us).walks.get? key).map CachedWalk.generation :=
  (newest_after us key).max?_eq

theorem counters_after (us : List (Use τ)) :
    ((empty : LookupCache τ).after us).hits + ((empty : LookupCache τ).after us).misses =
        (questions us).length ∧
      ((empty : LookupCache τ).after us).hits =
        (questions us).countP (fun q => q.answer?.isSome) ∧
      ((empty : LookupCache τ).after us).invalidations = (questions us).countP fun q =>
        (newestStamp? q.before (q.id, q.name)).any fun newest => newest ≠ q.generation := by
  -- Only questions move the counters. Each is judged by the uses before it, so the last one is taken off.
  induction us using List.reverseRecOn with
  | nil => exact ⟨rfl, rfl, rfl⟩
  | append_singleton us u ih =>
    obtain ⟨hasked, hhits, hinvalidations⟩ := ih
    rw [after_concat, questions_concat, List.length_append, List.countP_append, List.countP_append]
    cases u with
    | get id name generation =>
      have hcounted := hits_add_misses_get ((empty : LookupCache τ).after us) id name generation
      refine ⟨?_, ?_, ?_⟩
      · rw [use, hcounted, hasked]
        rfl
      · rw [use, hits_get, hhits]
        simp only [Use.question?, Option.toList_some, List.countP_singleton, Question.answer?]
      · rw [use, invalidations_get, hinvalidations]
        simp only [Use.question?, Option.toList_some, List.countP_singleton, newestStamp?_eq,
          Option.any_map]
    | insert id name generation walk =>
      obtain ⟨hsameHits, hsameMisses, hsameInvalidations⟩ :=
        counters_insert ((empty : LookupCache τ).after us) id name generation walk
      rw [use, hsameHits, hsameMisses, hsameInvalidations]
      exact ⟨hasked, hhits, hinvalidations⟩
    | clear => exact ⟨hasked, hhits, hinvalidations⟩

/-- A question is answered with the walk that was put in last for the greatest stamp, if it is about this
stamp. -/
theorem answer_after (us : List (Use τ)) (id : ClassId) (name : Symbol) (generation : Nat) :
    let answer := (((empty : LookupCache τ).after us).get id name generation).1
    (answer.isSome = true ↔ newestStamp? us (id, name) = some generation) ∧
      ∀ walk, answer = some walk → lastPutIn? us (id, name) generation = some walk := by
  have hnewest := newest_after us (id, name)
  simp only [get_fst_eq, newestStamp?_eq]
  cases hkept : ((empty : LookupCache τ).after us).walks.get? (id, name) with
  | none => simp
  | some kept =>
    rw [hkept] at hnewest
    by_cases hgeneration : kept.generation = generation
    · subst hgeneration
      simp [lastPutIn?, hnewest.getLast?_eq]
    · simp [Option.filter_some, hgeneration]

/-- Whatever was done to a cache, beginning with a new one: a question is answered exactly if it is about
the greatest stamp for which a walk was put in under its key since the cache was last cleared, and then
with the walk that was put in last for this stamp. As many walks are kept as there are keys under which
one was put in since then. Each question that was ever asked is counted once, as a hit if it was answered
and as a miss if not, and as an invalidation besides if there was a walk for another stamp. -/
theorem keeps_newest (us : List (Use τ)) :
    let c := (empty : LookupCache τ).after us
    (∀ id name generation,
      ((c.get id name generation).1.isSome = true ↔
        newestStamp? us (id, name) = some generation) ∧
      ∀ walk, (c.get id name generation).1 = some walk →
        lastPutIn? us (id, name) generation = some walk) ∧
    c.size = ((putIn us).map Prod.fst).toFinset.card ∧
    c.hits + c.misses = (questions us).length ∧
    c.hits = (questions us).countP (fun q => q.answer?.isSome) ∧
    c.invalidations = (questions us).countP fun q =>
      (newestStamp? q.before (q.id, q.name)).any fun newest => newest ≠ q.generation :=
  ⟨answer_after us, size_after us, counters_after us⟩

end LookupCache

end LateBinding
