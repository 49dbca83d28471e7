import SkynetGame.Redis

/-!
# Requests and replies of redis

A fragment ends the line of what is in front of it, so the line ends of a request are shifted by one,
and the last one is added. A request is what the server reads of it; a reply is read to its end
whatever is inside, so the replies of a pipeline are read one after the other.
-/

namespace SkynetGame

open List

namespace Redis

open LuaNumber
open LuaPattern (memFind FirstAt firstAt_of_not_mem memFind_eq_some isdigit)

variable {rest x : Bytes}

section Server

def line (text : Bytes) : Option (Bytes × Bytes) :=
  (memFind text crln).map fun n => (text.take n, text.drop (n + 2))

def number (text : Bytes) : Option ℕ :=
  if text ≠ [] ∧ text.all isdigit then some (text.foldl (fun n c => n * 10 + digitOf c) 0) else none

def marked (mark : UInt8) (text : Bytes) : Option (ℕ × Bytes) := do
  let (l, rest) ← line text
  if l.head? = some mark then (number (l.drop 1)).map fun n => (n, rest) else none

/-- An argument: its length, its bytes, and a line end. -/
def argument (text : Bytes) : Option (Bytes × Bytes) := do
  let (n, rest) ← marked 36 text
  if (rest.drop n).take 2 = crln then some (rest.take n, rest.drop (n + 2)) else none

def arguments : ℕ → Bytes → Option (List Bytes × Bytes)
  | 0, text => some ([], text)
  | n + 1, text => do
    let (a, text) ← argument text
    let (as, text) ← arguments n text
    some (a :: as, text)

/-- A command as the server reads it: how many arguments there are, and the arguments. -/
def command (text : Bytes) : Option (List Bytes × Bytes) := do
  let (n, text) ← marked 42 text
  arguments n text

def commands : ℕ → Bytes → Option (List (List Bytes) × Bytes)
  | 0, text => some ([], text)
  | n + 1, text => do
    let (c, text) ← command text
    let (cs, text) ← commands n text
    some (c :: cs, text)

end Server

section Lines

theorem memFind_crln (hx : 13 ∉ x) : memFind (x ++ (crln ++ rest)) crln = some x.length :=
  memFind_eq_some.2 (firstAt_of_not_mem hx)

theorem take_drop_line (x rest : Bytes) : (x ++ (crln ++ rest)).take x.length = x ∧
    (x ++ (crln ++ rest)).drop (x.length + 2) = rest := by
  refine ⟨take_left, ?_⟩
  rw [← drop_drop, drop_left]
  rfl

theorem line_append (hx : 13 ∉ x) : line (x ++ (crln ++ rest)) = some (x, rest) := by
  rw [line, memFind_crln hx, Option.map_some, (take_drop_line x rest).1, (take_drop_line x rest).2]

theorem number_numeral (n : ℕ) : number (numeral 10 n) = some n := by
  rw [number, if_pos, foldl_numeral (by decide) (by decide)]
  exact ⟨numeral_ne_nil (by decide), List.all_eq_true.2 fun _ => isdigit_of_mem_numeral⟩

theorem not_mem_numeral {c : UInt8} (hc : isdigit c = false) (n : ℕ) : c ∉ numeral 10 n := by
  intro h
  rw [isdigit_of_mem_numeral h] at hc
  cases hc

theorem marked_numeral {mark : UInt8} (hmark : mark ≠ 13) (n : ℕ) :
    marked mark (mark :: numeral 10 n ++ (crln ++ rest)) = some (n, rest) := by
  have hnot : 13 ∉ mark :: numeral 10 n := by
    simp only [mem_cons, not_or]
    exact ⟨hmark.symm, not_mem_numeral rfl n⟩
  rw [marked, line_append hnot]
  simp [number_numeral]

end Lines

section Requests

variable {α : Type} (tostring : α → Bytes)

/-- What an argument is written as, behind the line end in front of it. -/
def argumentText (a : Bytes) : Bytes := 36 :: numeral 10 a.length ++ (crln ++ (a ++ crln))

theorem argument_text (a : Bytes) : argument (argumentText a ++ rest) = some (a, rest) := by
  have hsplit : argumentText a ++ rest =
      36 :: numeral 10 a.length ++ (crln ++ (a ++ (crln ++ rest))) := by
    simp [argumentText]
  rw [argument, hsplit, marked_numeral (by decide)]
  have htake : ((a ++ (crln ++ rest)).drop a.length).take 2 = crln := by
    rw [drop_left]
    rfl
  obtain ⟨hleft, hright⟩ := take_drop_line a rest
  simp only [Option.bind_eq_bind, Option.bind_some, htake, if_true, hleft, hright]

theorem arguments_text : ∀ as : List Bytes,
    arguments as.length (as.flatMap argumentText ++ rest) = some (as, rest)
  | [] => rfl
  | a :: as => by
    rw [length_cons, arguments, flatMap_cons, append_assoc, argument_text]
    simp [arguments_text as]

def commandText (as : List Bytes) : Bytes :=
  42 :: numeral 10 as.length ++ (crln ++ as.flatMap argumentText)

theorem command_text (as : List Bytes) : command (commandText as ++ rest) = some (as, rest) := by
  have hsplit : commandText as ++ rest =
      42 :: numeral 10 as.length ++ (crln ++ (as.flatMap argumentText ++ rest)) := by
    simp [commandText]
  rw [command, hsplit, marked_numeral (by decide)]
  simp [arguments_text]

theorem flatten_composeArgs (c : Caches) (vs : List α) :
    (composeArgs tostring c vs).1.flatten ++ crln =
      crln ++ (vs.map tostring).flatMap argumentText := by
  induction vs generalizing c with
  | nil => simp [composeArgs]
  | cons v vs ih =>
    simp only [composeArgs, flatten_cons, append_assoc, ih, Cache.get_fst,
      headerFragment, map_cons, flatMap_cons, argumentText]
    rfl

/-- What a command is called with, as bytes. -/
def Msg.arguments : Msg α → List Bytes
  | .table vs => vs.map tostring
  | .value v => [tostring v]

theorem compose_message_text (c : Caches) (cmd : Bytes) (msg : Msg α) :
    (compose_message tostring c cmd msg).1.flatten =
      commandText (Bytes.upper cmd :: msg.arguments tostring) := by
  have hlen : (Bytes.upper cmd).length = cmd.length := length_map _
  cases msg with
  | table vs =>
    simp only [compose_message, cons_append, flatten_cons, flatten_append,
      flatten_nil, append_nil, flatten_composeArgs, Cache.get_fst, countFragment,
      commandFragment, commandText, Msg.arguments, length_cons, length_map,
      flatMap_cons, argumentText, append_assoc, hlen]
    rfl
  | value v =>
    simp only [compose_message, flatten_cons, flatten_nil, append_nil,
      Cache.get_fst, commandFragment, headerFragment, commandText, Msg.arguments, length_cons,
      length_nil, flatMap_cons, flatMap_nil, argumentText, append_assoc, hlen]
    rfl

theorem compose_table_text (c : Caches) (vs : List α) :
    (compose_table tostring c vs).1.flatten = commandText (vs.map tostring) := by
  simp only [compose_table, cons_append, flatten_cons, flatten_append,
    flatten_nil, append_nil, flatten_composeArgs, Cache.get_fst, countFragment,
    commandText, length_map, append_assoc]
  rfl

theorem commands_pipelineRequest (c : Caches) (ops : List (List α)) (rest : Bytes) :
    commands ops.length ((pipelineRequest tostring c ops).1.flatten ++ rest) =
      some (ops.map (List.map tostring), rest) := by
  induction ops generalizing c with
  | nil => rfl
  | cons op ops ih =>
    rw [length_cons, commands, pipelineRequest]
    simp only [flatten_append, append_assoc, compose_table_text, command_text,
      Option.bind_eq_bind, Option.bind_some, ih, map_cons]

end Requests

inductive Reply
  | status (b : Bytes)
  | error (b : Bytes)
  | int (n : ℤ)
  | bulk (b : Bytes)
  | null
  | array (rs : List Reply)
  | nullArray

section Replies

mutual

def Reply.text : Reply → Bytes
  | .status b => 43 :: b ++ crln
  | .error b => 45 :: b ++ crln
  | .int n => 58 :: decimal n ++ crln
  | .bulk b => 36 :: numeral 10 b.length ++ crln ++ b ++ crln
  | .null => Bytes.ascii "$-1\r\n"
  | .array rs => 42 :: numeral 10 rs.length ++ crln ++ replyTexts rs
  | .nullArray => Bytes.ascii "*-1\r\n"

def replyTexts : List Reply → Bytes
  | [] => []
  | r :: rs => r.text ++ replyTexts rs

end

mutual

/-- A line has no line end in it, and numbers fit 64 bits. -/
def Reply.WellFormed : Reply → Prop
  | .status b | .error b => 13 ∉ b
  | .int n => -0x8000000000000000 ≤ n ∧ n < 0x8000000000000000
  | .bulk b => b.length + 2 < 0x8000000000000000
  | .null | .nullArray => True
  | .array rs => rs.length < 0x8000000000000000 ∧ AllWellFormed rs

def AllWellFormed : List Reply → Prop
  | [] => True
  | r :: rs => r.WellFormed ∧ AllWellFormed rs

end

mutual

/-- There is no error in the reply. -/
def Reply.noerr : Reply → Bool
  | .error _ => false
  | .array rs => noerrs rs
  | _ => true

def noerrs : List Reply → Bool
  | [] => true
  | r :: rs => r.noerr && noerrs rs

end

variable (F : Floats)

mutual

def Reply.value : Reply → Value F.φ
  | .status b | .error b | .bulk b => .str b
  | .int n => .num (.int n)
  | .null | .nullArray => .nil
  | .array rs => .table (values rs)

def values : List Reply → List (Value F.φ)
  | [] => []
  | r :: rs => r.value :: values rs

end

theorem readline_append (hx : 13 ∉ x) : readline (x ++ (crln ++ rest)) = .ok (x, rest) := by
  rw [readline, memFind_crln hx]
  simp only [take_drop_line]

theorem read_append (a rest : Bytes) : read a.length (a ++ rest) = .ok (a, rest) := by
  rw [read, if_neg (by omega), if_neg (by simp)]
  simp

theorem not_mem_decimal (n : ℤ) : 13 ∉ decimal n := by
  unfold decimal
  split_ifs
  · exact not_mem_cons_of_ne_of_not_mem (by decide) (not_mem_numeral rfl _)
  · exact not_mem_numeral rfl _

theorem tonumber_numeral {n : ℕ} (hn : n < 0x8000000000000000) :
    tonumber F.l_str2d (numeral 10 n) = some (.int n) := by
  rw [← decimal_natCast]
  exact tonumber_decimal _ (by omega) (by omega)

theorem read_response_line {mark : UInt8} (hmark : mark ≠ 13) (hx : 13 ∉ x) (depth : ℕ) :
    read_response F (depth + 1) (mark :: x ++ (crln ++ rest)) =
      redcmd F (read_response F depth) (some mark) x rest := by
  have hnot : 13 ∉ mark :: x := not_mem_cons_of_ne_of_not_mem hmark.symm hx
  rw [read_response, readline_append hnot]
  rfl

theorem redcmd_bulk (f : Bytes → Except Fail ((Bool × Value F.φ) × Bytes)) {b : Bytes}
    (hb : b.length + 2 < 0x8000000000000000) :
    redcmd F f (some 36) (numeral 10 b.length) (b ++ (crln ++ rest)) =
      .ok ((true, .str b), rest) := by
  have hread : read (wrap ((b.length : ℤ) + 2)) (b ++ (crln ++ rest)) =
      .ok (b ++ crln, rest) := by
    have hlen : wrap ((b.length : ℤ) + 2) = (b ++ crln).length := by
      rw [length_append]
      exact wrap_of_lt hb
    rw [hlen, ← append_assoc, read_append]
  have hneg : ¬ (b.length : ℤ) < 0 := by omega
  simp only [redcmd, tonumber_numeral F (show b.length < 0x8000000000000000 by omega),
    Option.bind_some, Floats.toAmount, if_neg hneg, hread, bind, Except.bind, length_append]
  congr 4
  exact take_left

theorem redcmd_null (f : Bytes → Except Fail ((Bool × Value F.φ) × Bytes)) {mark : UInt8}
    (hmark : mark = 36 ∨ mark = 42) :
    redcmd F f (some mark) (Bytes.ascii "-1") rest = .ok ((true, .nil), rest) := by
  have hnum : tonumber F.l_str2d (Bytes.ascii "-1") = some (.int (-1)) := by
    rw [tonumber, show l_str2int (Bytes.ascii "-1") = some (-1) by decide]
  rcases hmark with rfl | rfl
  · simp only [redcmd, hnum, Option.bind_some, Floats.toAmount]
    rfl
  · simp only [redcmd, hnum, Option.map_some, Floats.toLimit]
    rfl

mutual

theorem read_response_text : ∀ (r : Reply) (depth : ℕ) (rest : Bytes), r.WellFormed →
    r.text.length ≤ depth →
    read_response F depth (r.text ++ rest) = .ok ((r.noerr, r.value F), rest)
  | .status b, depth + 1, rest, hr, _ => by
    rw [Reply.text, append_assoc, read_response_line F (by decide) hr]
    rfl
  | .error b, depth + 1, rest, hr, _ => by
    rw [Reply.text, append_assoc, read_response_line F (by decide) hr]
    rfl
  | .int n, depth + 1, rest, hr, _ => by
    rw [Reply.text, append_assoc, read_response_line F (by decide) (not_mem_decimal n)]
    simp only [redcmd, tonumber_decimal F.l_str2d hr.1 hr.2]
    rfl
  | .bulk b, depth + 1, rest, hr, _ => by
    rw [Reply.text, append_assoc, append_assoc, append_assoc,
      read_response_line F (by decide) (not_mem_numeral rfl _), redcmd_bulk F _ hr]
    rfl
  | .null, depth + 1, rest, _, _ => by
    have hsplit : Reply.null.text ++ rest = 36 :: Bytes.ascii "-1" ++ (crln ++ rest) := rfl
    rw [hsplit, read_response_line F (by decide) (by decide), redcmd_null F _ (.inl rfl)]
    rfl
  | .nullArray, depth + 1, rest, _, _ => by
    have hsplit : Reply.nullArray.text ++ rest = 42 :: Bytes.ascii "-1" ++ (crln ++ rest) := rfl
    rw [hsplit, read_response_line F (by decide) (by decide), redcmd_null F _ (.inr rfl)]
    rfl
  | .array rs, depth + 1, rest, hr, hdepth => by
    have hle : (replyTexts rs).length ≤ depth := by
      rw [Reply.text, length_append, length_append, length_cons] at hdepth
      omega
    have hneg : ¬ (rs.length : ℤ) < 0 := by omega
    rw [Reply.text, append_assoc, append_assoc,
      read_response_line F (by decide) (not_mem_numeral rfl _)]
    simp only [redcmd, tonumber_numeral F hr.1, Option.map_some, Floats.toLimit, if_neg hneg,
      Int.toNat_natCast, readBulk_texts rs depth rest hr.2 hle, bind, Except.bind]
    rfl

theorem readBulk_texts : ∀ (rs : List Reply) (depth : ℕ) (rest : Bytes), AllWellFormed rs →
    (replyTexts rs).length ≤ depth →
    readBulk F (read_response F depth) rs.length (replyTexts rs ++ rest) =
      .ok ((noerrs rs, values F rs), rest)
  | [], _, _, _, _ => rfl
  | r :: rs, depth, rest, hrs, hdepth => by
    rw [replyTexts, length_append] at hdepth
    have hr := read_response_text r depth (replyTexts rs ++ rest) hrs.1 (by omega)
    have hrs := readBulk_texts rs depth rest hrs.2 (by omega)
    rw [length_cons, readBulk, replyTexts, append_assoc]
    simp only [hr, hrs, bind, Except.bind]
    rfl

end

theorem response_text {r : Reply} (hr : r.WellFormed) (rest : Bytes) :
    response F (r.text ++ rest) = .ok ((r.noerr, r.value F), rest) :=
  read_response_text F r _ rest hr (by simp)

theorem pipelineReplies_texts : ∀ (rs : List Reply) (rest : Bytes), AllWellFormed rs →
    pipelineReplies F rs.length (replyTexts rs ++ rest) =
      .ok (rs.map fun r => (r.noerr, r.value F), rest)
  | [], _, _ => rfl
  | r :: rs, rest, hrs => by
    rw [length_cons, pipelineReplies, replyTexts, append_assoc]
    simp only [response_text F hrs.1, pipelineReplies_texts rs rest hrs.2, bind, Except.bind,
      map_cons]

theorem pipelineResponse_texts (resp : List (Bool × Value F.φ)) {rs : List Reply} (rest : Bytes)
    (hrs : AllWellFormed rs) :
    pipelineResponse F (some resp) rs.length (replyTexts rs ++ rest) =
      .ok (.inl (resp ++ rs.map fun r => (r.noerr, r.value F)), rest) ∧
    pipelineResponse F none rs.length (replyTexts rs ++ rest) =
      .ok (.inr (rs.map fun r => (r.noerr, r.value F)).getLast?, rest) := by
  constructor
  all_goals
    simp only [pipelineResponse, pipelineReplies_texts F rs rest hrs, bind, Except.bind]

/-- The server reads just the commands, with their arguments; a reply is read to its end, to its
value; and behind the replies of a pipeline there is the next reply. -/
theorem requests_and_replies {α : Type} (tostring : α → Bytes) (c : Caches) (cmd : Bytes)
    (msg : Msg α) (ops : List (List α)) (resp : List (Bool × Value F.φ)) (rest : Bytes) {r : Reply}
    (hr : r.WellFormed) {rs : List Reply} (hrs : AllWellFormed rs) :
    command ((compose_message tostring c cmd msg).1.flatten ++ rest) =
      some (Bytes.upper cmd :: msg.arguments tostring, rest) ∧
    commands ops.length ((pipelineRequest tostring c ops).1.flatten ++ rest) =
      some (ops.map (List.map tostring), rest) ∧
    response F (r.text ++ rest) = .ok ((r.noerr, r.value F), rest) ∧
    pipelineResponse F (some resp) rs.length (replyTexts rs ++ rest) =
      .ok (.inl (resp ++ rs.map fun r => (r.noerr, r.value F)), rest) ∧
    pipelineResponse F none rs.length (replyTexts rs ++ rest) =
      .ok (.inr (rs.map fun r => (r.noerr, r.value F)).getLast?, rest) := by
  refine ⟨?_, commands_pipelineRequest tostring c ops rest, response_text F hr rest,
    pipelineResponse_texts F resp rest hrs⟩
  rw [compose_message_text, command_text]

def noCaches : Caches where
  header := ⟨fun _ => none, fun _ _ h => by cases h⟩
  command := ⟨fun _ => none, fun _ _ h => by cases h⟩
  count := ⟨fun _ => none, fun _ _ h => by cases h⟩

def noFloats : Floats where
  φ := Empty
  l_str2d := fun _ => none
  amount := fun _ => none
  limit := fun _ => 0

/-- An error and a null inside of arrays, and a string with a line end, in front of a status. -/
theorem requests_and_replies_nested :
    command ((compose_message id noCaches (Bytes.ascii "get") (.value (Bytes.ascii "k"))).1.flatten
      ++ []) = some ([Bytes.ascii "GET", Bytes.ascii "k"], []) ∧
    response noFloats ((Reply.array [.array [.error (Bytes.ascii "ERR"), .null],
      .bulk [13, 10]]).text ++ Bytes.ascii "+OK\r\n") =
      .ok ((false, .table [.table [.str (Bytes.ascii "ERR"), .nil], .str [13, 10]]),
        Bytes.ascii "+OK\r\n") := by
  have herror : (Reply.error (Bytes.ascii "ERR")).WellFormed :=
    show 13 ∉ Bytes.ascii "ERR" by decide
  have hbulk : (Reply.bulk [13, 10]).WellFormed :=
    show [13, 10].length + 2 < 0x8000000000000000 by decide
  have hr : (Reply.array [.array [.error (Bytes.ascii "ERR"), .null], .bulk [13, 10]]).WellFormed :=
    ⟨by decide, ⟨by decide, herror, trivial, trivial⟩, hbulk, trivial⟩
  have hrs : AllWellFormed [] := trivial
  obtain ⟨hcommand, -⟩ := requests_and_replies noFloats id noCaches (Bytes.ascii "get")
    (.value (Bytes.ascii "k")) [] [] [] hr hrs
  obtain ⟨-, -, hresponse, -⟩ := requests_and_replies noFloats id noCaches [] (.value []) [] []
    (Bytes.ascii "+OK\r\n") hr hrs
  exact ⟨hcommand, hresponse⟩

end Replies

end Redis

end SkynetGame
