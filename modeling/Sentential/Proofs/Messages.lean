import Sentential.Proofs.Lines
import Sentential.World.Sink

/-!
# Messages of a log sink

A log sink makes messages of the text it is given, in whatever pieces it is given. The text between
two flushes is logged line by line, and what comes behind its last line break is a message of its own
unless it is empty; the end of the sink counts as a flush. Without a flush between them, calls that
add the same text are not told apart.
-/
namespace Sentential

variable {ω : Type}

/-- The calls that add to a sink or flush it. -/
inductive Sink.Call where
  | append (text : String)
  | char (c : Char)
  | line (text : String)
  | flush
  deriving DecidableEq

namespace Sink.Call

def perform (s : Sink ω) : Call → Act ω Unit
  | append text => s.append text
  | char c => s.appendChar c
  | line text => s.line text
  | flush => s.flush

def text : Call → String
  | append text => text
  | char c => String.singleton c
  | line text => text ++ "\n"
  | flush => ""

/-- Makes calls on a sink up to its end, where it is flushed. -/
def session (s : Sink ω) (calls : List Call) : Act ω Unit := do
  calls.forM (perform s)
  s.flush

/-- The texts between flushes, the first of which begins with the given text. -/
def texts (before : String) : List Call → List String
  | [] => [before]
  | flush :: calls => before :: texts "" calls
  | call :: calls => texts (before ++ call.text) calls

theorem texts_cons {call : Call} (h : call ≠ flush) (before : String) (calls : List Call) :
    texts before (call :: calls) = texts (before ++ call.text) calls := by
  cases call with
  | flush => exact (h rfl).elim
  | _ => rfl

end Sink.Call

namespace Log

def recordAll (log : Log ω) (level : Level) (messages : List String) (w : ω) : ω :=
  messages.foldl (fun w message => log.record level (fun _ => message) w) w

/-- Recording a message does not touch a part of the world, nor depend on it. -/
def Apart {σ : Type} (log : Log ω) (p : Part ω σ) : Prop :=
  ∀ level text s w, log.record level text (p.set s w) = p.set s (log.record level text w)

variable {σ : Type} {log : Log ω} {p : Part ω σ}

theorem recordAll_append (level : Level) (xs ys : List String) (w : ω) :
    log.recordAll level (xs ++ ys) w = log.recordAll level ys (log.recordAll level xs w) :=
  List.foldl_append

theorem Apart.recordAll_set (apart : log.Apart p) (level : Level) (messages : List String) (s : σ)
    (w : ω) : log.recordAll level messages (p.set s w) = p.set s (log.recordAll level messages w) := by
  induction messages generalizing w with
  | nil => rfl
  | cons message messages ih =>
    have hfirst : log.recordAll level (message :: messages) (p.set s w) =
        log.recordAll level messages (p.set s (log.record level (fun _ => message) w)) :=
      congrArg (log.recordAll level messages) (apart level _ s w)
    rw [hfirst, ih]
    rfl

theorem Apart.get_recordAll (apart : log.Apart p) (level : Level) (messages : List String) (w : ω) :
    p.get (log.recordAll level messages w) = p.get w := by
  have hset := apart.recordAll_set level messages (p.get w) w
  rw [p.set_get] at hset
  rw [hset, p.get_set]

end Log

namespace PartialLine

/-- Text in two pieces is cut like the text as a whole. -/
theorem cut_append (held : String) (xs ys : List Char) :
    cut held (xs ++ ys) =
      ((cut held xs).1 ++ (cut (cut held xs).2 ys).1, (cut (cut held xs).2 ys).2) := by
  induction xs generalizing held with
  | nil => rfl
  | cons c xs ih =>
    rw [List.cons_append, cut, cut]
    split
    · rw [ih]
      rfl
    · exact ih _

/-- What a flush makes of the line that goes on: a message if it is not empty. -/
def pending (held : String) : List String := if held.isEmpty then [] else [held]

/-- The finished lines and the line that goes on are the lines of the text. -/
theorem linesFrom_eq (held : String) (chars : List Char) :
    Text.linesFrom held.toList.reverse chars =
      (cut held chars).1 ++ pending (cut held chars).2 := by
  induction chars generalizing held with
  | nil =>
    rw [Text.linesFrom, cut, pending, List.nil_append, List.reverse_reverse, String.ofList_toList]
    simp
  | cons c rest ih =>
    rw [Text.linesFrom, cut]
    split
    · rw [List.reverse_reverse, String.ofList_toList]
      exact congrArg (held :: ·) (ih "")
    · have hpush : c :: held.toList.reverse = (held.push c).toList.reverse := by simp
      rw [hpush, ih]

theorem lines_eq (text : String) :
    Text.lines text = (cut "" text.toList).1 ++ pending (cut "" text.toList).2 :=
  linesFrom_eq "" text.toList

end PartialLine

open PartialLine

namespace Sink

theorem Call.session_cons (s : Sink ω) (call : Call) (calls : List Call) :
    session s (call :: calls) = (do perform s call; session s calls) := by
  simp only [session, List.forM_eq_forM, List.forM_cons, bind_assoc]

variable {p : Part ω PartialLine} {log : Log ω} {level : Level}

theorem log_append_run (text : String) (w : ω) :
    (Sink.log p log level).append text w =
      (.value (), log.recordAll level (cut (p.get w).text text.toList).1
        (p.set ⟨(cut (p.get w).text text.toList).2⟩ w)) := rfl

theorem log_append_empty (w : ω) : (Sink.log p log level).append "" w = (.value (), w) :=
  congrArg (Outcome.value (), ·) (p.set_get w)

theorem log_flush_run (w : ω) :
    (Sink.log p log level).flush w =
      (.value (), log.recordAll level (pending (p.get w).text) (p.set ⟨""⟩ w)) := by
  have hflush : (Sink.log p log level).flush w =
      (.value (), if (p.get w).text.isEmpty then w
        else log.record level (fun _ => (p.get w).text) (p.set ⟨""⟩ w)) := rfl
  rw [hflush, pending]
  split
  · rename_i hempty
    have hheld : p.get w = ⟨""⟩ := congrArg PartialLine.mk (String.isEmpty_iff.1 hempty)
    rw [← hheld, p.set_get]
    rfl
  · rfl

section Apart

variable (apart : log.Apart p)

include apart

/-- A text that is added behind another one is recorded behind it. -/
theorem log_append_append (before text : String) (w : ω) :
    (do (Sink.log p log level).append before; (Sink.log p log level).append text) w =
      (Sink.log p log level).append (before ++ text) w := by
  rw [Act.bind_value (log_append_run before w), log_append_run, log_append_run,
    apart.get_recordAll, p.get_set, ← apart.recordAll_set, p.set_set, ← Log.recordAll_append,
    String.toList_append, cut_append]

theorem log_append_flush (text : String) {w : ω} (fresh : p.get w = ⟨""⟩) :
    (do (Sink.log p log level).append text; (Sink.log p log level).flush) w =
      (.value (), log.recordAll level (Text.lines text) w) := by
  rw [Act.bind_value (log_append_run text w), log_flush_run, apart.get_recordAll, p.get_set,
    ← apart.recordAll_set, p.set_set, ← Log.recordAll_append, fresh, ← lines_eq, ← fresh, p.set_get]

namespace Call

theorem perform_log {call : Call} (h : call ≠ flush) :
    perform (.log p log level) call = (Sink.log p log level).append call.text := by
  cases call with
  | flush => exact (h rfl).elim
  | append text => rfl
  | char c => rfl
  | line text => exact funext (log_append_append apart text "\n")

/-- Calls without a flush add their texts as if they were one. -/
theorem forM_perform_log {calls : List Call} (h : flush ∉ calls) (w : ω) :
    calls.forM (perform (.log p log level)) w =
      (Sink.log p log level).append (String.join (calls.map text)) w := by
  induction calls generalizing w with
  | nil => exact (log_append_empty w).symm
  | cons call calls ih =>
    rw [List.mem_cons, not_or] at h
    obtain ⟨hcall, hcalls⟩ := h
    rw [List.map_cons, String.join_cons, ← log_append_append apart, List.forM_eq_forM,
      List.forM_cons, perform_log apart (Ne.symm hcall)]
    exact congrArg (· w) (congrArg ((Sink.log p log level).append call.text >>= ·)
      (funext fun _ => funext (ih hcalls)))

theorem session_log (calls : List Call) (before : String) {w : ω} (fresh : p.get w = ⟨""⟩) :
    (do (Sink.log p log level).append before; session (.log p log level) calls) w =
      (.value (), log.recordAll level ((texts before calls).flatMap Text.lines) w) := by
  induction calls generalizing before w with
  | nil =>
    rw [texts, List.flatMap_singleton]
    exact log_append_flush apart before fresh
  | cons call calls ih =>
    rw [session_cons, ← bind_assoc]
    by_cases h : call = flush
    · -- what has been added before the flush is recorded, and the calls go on with nothing
      obtain rfl := h
      have hbefore : (do (Sink.log p log level).append before; (Sink.log p log level).flush) w = _ :=
        log_append_flush apart before fresh
      have hfresh : p.get (log.recordAll level (Text.lines before) w) = ⟨""⟩ := by
        rw [apart.get_recordAll, fresh]
      have hafter := ih "" hfresh
      rw [Act.bind_value (log_append_empty _)] at hafter
      rw [texts, List.flatMap_cons, Log.recordAll_append, ← hafter]
      exact Act.bind_value hbefore
    · rw [texts_cons h, ← ih _ fresh, perform_log apart h]
      exact congrArg (fun x => (x >>= fun _ => session (.log p log level) calls) w)
        (funext (log_append_append apart before call.text))

end Call

end Apart

/-- The messages of a log sink are the lines of the texts between flushes, from the first call to the
end of the sink. Calls without a flush between them that add the same text leave the same messages
and the same unfinished line. -/
theorem logs_lines (level : Level) (apart : log.Apart p) :
    (∀ (calls : List Call) (w : ω), p.get w = ⟨""⟩ →
      Call.session (.log p log level) calls w =
        (.value (), log.recordAll level ((Call.texts "" calls).flatMap Text.lines) w)) ∧
    ∀ calls others : List Call, .flush ∉ calls → .flush ∉ others →
      String.join (calls.map Call.text) = String.join (others.map Call.text) → ∀ w : ω,
        calls.forM (Call.perform (.log p log level)) w =
          others.forM (Call.perform (.log p log level)) w := by
  constructor
  · intro calls w fresh
    rw [← Call.session_log apart calls "" fresh, Act.bind_value (log_append_empty w)]
  · intro calls others hcalls hothers htext w
    rw [Call.forM_perform_log apart hcalls, Call.forM_perform_log apart hothers, htext]

/-- A sink of its own, with a book where nothing but the messages is kept. -/
def booked : Sink (PartialLine × LogBook) := .log .fst (.book .snd) .info

/-- A line in three pieces, an empty line and two lines that only a flush and the end of the sink
finish; then a line break that is added by itself or with the text. -/
theorem logs_lines_booked :
    (Call.session booked [.append "first\nsecond", .char ' ', .line "half", .flush, .line "",
      .append "rest", .flush, .flush, .append "end"] (⟨""⟩, ⟨some .info, []⟩)).2.2.lines =
        ["INFO first", "INFO second half", "INFO ", "INFO rest", "INFO end"] ∧
    [Call.line "hey", .append "you"].forM (Call.perform booked) (⟨"oh, "⟩, ⟨some .info, []⟩) =
      [Call.append "hey", .char '\n', .append "you"].forM (Call.perform booked)
        (⟨"oh, "⟩, ⟨some .info, []⟩) := by
  have apart : (Log.book (Part.snd : Part (PartialLine × LogBook) LogBook)).Apart .fst :=
    fun _ _ _ _ => rfl
  obtain ⟨hsession, hchunks⟩ := logs_lines .info apart
  constructor
  · rw [booked, hsession _ _ rfl]
    rfl
  · exact hchunks _ _ (by decide) (by decide) (by decide) _

end Sink

end Sentential
