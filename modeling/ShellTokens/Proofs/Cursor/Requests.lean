import ShellTokens.Proofs.Cursor.Lexes

/-!
# Requests to a cursor

A reader may ask a cursor for a token, for a look ahead, for one byte back and for the next token of
an iteration, in any order and in any modes. Whatever it asks for, the cursor stays within its line.
So the query for the token at its position always has an answer, and each reply is this answer.
-/

namespace ShellTokens

inductive Request where
  | read (mode : Mode)
  | lookAhead (mode : Mode)
  | unread
  /-- The next token of an iteration in one mode. The iteration keeps no more than its mode, so
  asking it several times is as many requests. -/
  | next (mode : Mode)
deriving DecidableEq, Repr

inductive Reply where
  | token (t : Token)
  | terminal (u : Terminal)
  | moved (b : Bool)
  | next (t? : Option Token)
deriving DecidableEq, Repr

namespace Cursor

/-- The reply to a request, and the cursor after it. -/
def serve (g : Grammar) (c : Cursor) : Request → Reply × Cursor
  | .read mode =>
    let (t, c') := c.read g mode
    (.token t, c')
  | .lookAhead mode => (.terminal (c.lookAhead g mode), c)
  | .unread =>
    match c.unread? with
    | some c' => (.moved true, c')
    | none => (.moved false, c)
  | .next mode =>
    let (t?, c') := c.next g mode
    (.next t?, c')

/-- The replies to requests made one after the other, and the cursor after them. -/
def serveAll (g : Grammar) (c : Cursor) : List Request → List Reply × Cursor
  | [] => ([], c)
  | request :: requests =>
    let (reply, c') := c.serve g request
    let (replies, c'') := serveAll g c' requests
    (reply :: replies, c'')

end Cursor

/-! ### Replies from queries -/

variable {g : Grammar} {line : Line} {c : Cursor}

/-- The reply to a request at a position of the line, and the position after it, told by the query
for the token at that position. A look ahead leads nowhere. -/
inductive Follows (g : Grammar) (line : Line) (pos : Nat) : Request → Reply → Nat → Prop
  | read {mode : Mode} {found : Match} (hfound : g.tokenAt mode line pos = .ok found) :
      Follows g line pos (.read mode) (.token ⟨found.terminal, ⟨pos, found.stop⟩⟩) found.stop
  | lookAhead {mode : Mode} : Follows g line pos (.lookAhead mode)
      (.terminal (Cursor.lookAhead g mode ⟨line, pos⟩)) pos
  | unread {before : Nat} (hpos : pos = before + 1) : Follows g line pos .unread (.moved true) before
  | unreadAtStart (hpos : pos = 0) : Follows g line pos .unread (.moved false) pos
  | next {mode : Mode} {found : Match} (hfound : g.tokenAt mode line pos = .ok found)
      (hwidth : pos < found.stop) :
      Follows g line pos (.next mode) (.next (some ⟨found.terminal, ⟨pos, found.stop⟩⟩)) found.stop
  | nextFallback {mode : Mode} {found : Match} (hfound : g.tokenAt mode line pos = .ok found)
      (hwidth : found.stop = pos) : Follows g line pos (.next mode) (.next none) found.stop

/-- The replies to requests one after the other. Each request is made where the one before it has
led, and none of these positions lies beyond the line. -/
inductive FollowsAll (g : Grammar) (line : Line) : Nat → List Request → List Reply → Nat → Prop
  | done {pos : Nat} (hpos : pos ≤ line.size) : FollowsAll g line pos [] [] pos
  | serve {pos mid stop : Nat} {request : Request} {reply : Reply} {requests : List Request}
      {replies : List Reply} (hpos : pos ≤ line.size) (hreply : Follows g line pos request reply mid)
      (hrest : FollowsAll g line mid requests replies stop) :
      FollowsAll g line pos (request :: requests) (reply :: replies) stop

namespace Cursor

/-- A next token is a read that may have found nothing. -/
theorem follows_next (g : Grammar) (mode : Mode) (hpos : c.pos ≤ c.line.size) :
    Follows g c.line c.pos (.next mode) (.next (c.next g mode).1) (c.next g mode).2.pos := by
  have hfound := Grammar.tokenAt_eq_ok g mode hpos
  cases hwidth : (c.read g mode).1.isFallback with
  | true =>
    have hstop : ((g.table mode).bestMatch c.line.bytes c.pos).stop = c.pos :=
      congrArg Cursor.pos (read_of_isFallback hwidth)
    have hreply := Follows.nextFallback hfound hstop
    rw [next_of_isFallback hwidth]
    rwa [hstop] at hreply
  | false =>
    rw [next_of_not_isFallback hwidth]
    exact Follows.next hfound (isFallback_read_eq_false_iff.1 hwidth)

/-- A request within the line is served from the query at the cursor, and leads to a place within
the line. -/
theorem follows_serve (g : Grammar) (request : Request) (hpos : c.pos ≤ c.line.size) :
    ∃ reply mid, c.serve g request = (reply, ⟨c.line, mid⟩) ∧ mid ≤ c.line.size ∧
      Follows g c.line c.pos request reply mid := by
  cases request with
  | read mode =>
    have hfound := Grammar.tokenAt_eq_ok g mode hpos
    exact ⟨_, _, rfl, pos_read_le_size g mode hpos, Follows.read hfound⟩
  | lookAhead mode => exact ⟨_, _, rfl, hpos, Follows.lookAhead⟩
  | unread =>
    by_cases hzero : c.pos = 0
    · have hback : c.unread? = none := if_pos hzero
      refine ⟨.moved false, c.pos, ?_, hpos, Follows.unreadAtStart hzero⟩
      simp only [serve, hback]
    · have hback : c.unread? = some ⟨c.line, c.pos - 1⟩ := if_neg hzero
      refine ⟨.moved true, c.pos - 1, ?_, by omega, Follows.unread (by omega)⟩
      simp only [serve, hback]
  | next mode => exact ⟨_, _, rfl, pos_read_le_size g mode hpos, follows_next g mode hpos⟩

theorem followsAll_serveAll (g : Grammar) (requests : List Request) (hpos : c.pos ≤ c.line.size) :
    ∃ replies stop, c.serveAll g requests = (replies, ⟨c.line, stop⟩) ∧ stop ≤ c.line.size ∧
      FollowsAll g c.line c.pos requests replies stop := by
  induction requests generalizing c with
  | nil => exact ⟨[], c.pos, rfl, hpos, FollowsAll.done hpos⟩
  | cons request requests ih =>
    obtain ⟨reply, mid, hserve, hmid, hreply⟩ := follows_serve g request hpos
    obtain ⟨replies, stop, hall, hstop, hrest⟩ := ih (c := ⟨c.line, mid⟩) hmid
    refine ⟨reply :: replies, stop, ?_, hstop, FollowsAll.serve hpos hreply hrest⟩
    simp only [serveAll, hserve, hall]

/-- One byte back leads into the middle of an operator. -/
example : ((atStart (Line.ofString "$(")).serveAll Shell.grammar
    [.next .command, .unread, .read .command, .next .command]).1 =
      [.next (some ⟨.leftCommandSub, ⟨0, 2⟩⟩), .moved true, .token ⟨.opLParen, ⟨1, 2⟩⟩,
        .next none] := by
  decide +kernel

end Cursor

end ShellTokens
