import HttpLws.Engine
import HttpLws.Lib.Runs

/-!
# The server actor and its thread objects

The actor holds one pointer to a thread object. Starting creates an object and
overwrites the pointer, stopping deletes the object and keeps the pointer, and
toggling suspends or resumes the worker through the pointer. The thread objects
are listed in the order of their creation, and a pointer is an index.
-/

namespace HttpLws

/-- The engine's thread of a worker: the operating system's suspend count. -/
structure FRunnableThread where
  /-- The thread runs only at zero. -/
  suspendCount : ℕ

/-- `FRunnableThread::Suspend` counts up or down. -/
def FRunnableThread.suspend (self : FRunnableThread) (bShouldPause : Bool) : FRunnableThread :=
  ⟨if bShouldPause then self.suspendCount + 1 else self.suspendCount - 1⟩

/-- `FHTTP_Thread_LibWebSocket`, as far as the actor's calls reach it. -/
structure FHTTPThreadLibWebSocket where
  /-- `RunnableThread`; null when the engine could not create the thread. -/
  runnableThread : Option FRunnableThread
  /-- How often the object has been deleted. -/
  deletions : ℕ

namespace FHTTPThreadLibWebSocket

/-- The constructor; `created` is the outcome of `FRunnableThread::Create`. -/
def new (created : Bool) : FHTTPThreadLibWebSocket := ⟨if created then some ⟨0⟩ else none, 0⟩

/-- `FHTTP_Thread_LibWebSocket::Toggle` -/
def toggle (self : FHTTPThreadLibWebSocket) (bIsPause : Bool) : FHTTPThreadLibWebSocket × Bool :=
  match self.runnableThread with
  | none => (self, false)
  | some thread => ({ self with runnableThread := some (thread.suspend bIsPause) }, true)

/-- `delete` of the object. The destructor waits in `Kill(true)` until the worker has
left `Run`; what it then frees keeps its bytes here. -/
def delete (self : FHTTPThreadLibWebSocket) : FHTTPThreadLibWebSocket :=
  { self with deletions := self.deletions + 1 }

/-- There is a worker and it does not run. -/
def suspended (self : FHTTPThreadLibWebSocket) : Bool :=
  self.runnableThread.any (·.suspendCount ≠ 0)

/-- The object exists. -/
def alive (self : FHTTPThreadLibWebSocket) : Bool := self.deletions == 0

end FHTTPThreadLibWebSocket

/-- `AHTTP_Server_LWS` with the thread objects it has created. -/
structure AHTTPServerLWS where
  /-- `Server_Name` -/
  serverName : FString
  /-- `Thread_LibWebSocket` -/
  threadLibWebSocket : Option ℕ
  /-- All thread objects, deleted ones included. -/
  threads : List FHTTPThreadLibWebSocket

/-- A call on the actor. `BeginPlay` is a start and `EndPlay` is a stop. -/
inductive ServerCall
  /-- `HTTP_Server_Start`, with the outcome of `FRunnableThread::Create`. -/
  | start (created : Bool)
  /-- `HTTP_Server_Stop` -/
  | stop
  /-- `HTTP_Server_Toggle` -/
  | toggle (bIsPause : Bool)

namespace AHTTPServerLWS

/-- An actor that has not been started. -/
def new (serverName : FString) : AHTTPServerLWS := ⟨serverName, none, []⟩

/-- The object behind the pointer. -/
def target (self : AHTTPServerLWS) : Option FHTTPThreadLibWebSocket :=
  self.threadLibWebSocket.bind fun p => self.threads[p]?

/-- `AHTTP_Server_LWS::HTTP_Server_Start` -/
def httpServerStart (self : AHTTPServerLWS) (created : Bool) : AHTTPServerLWS × Bool :=
  if self.serverName = [] then (self, false)
  else
    ({ self with
        threadLibWebSocket := some self.threads.length
        threads := self.threads ++ [.new created] }, true)

/-- `AHTTP_Server_LWS::HTTP_Server_Stop` -/
def httpServerStop (self : AHTTPServerLWS) : AHTTPServerLWS :=
  match self.threadLibWebSocket with
  | none => self
  | some p => { self with threads := self.threads.modify p FHTTPThreadLibWebSocket.delete }

/-- `AHTTP_Server_LWS::HTTP_Server_Toggle` -/
def httpServerToggle (self : AHTTPServerLWS) (bIsPause : Bool) : AHTTPServerLWS × Bool :=
  match self.threadLibWebSocket with
  | none => (self, false)
  | some p =>
      ({ self with threads := self.threads.modify p fun t => (t.toggle bIsPause).1 },
        self.threads[p]?.any fun t => (t.toggle bIsPause).2)

/-- One call. -/
def call (self : AHTTPServerLWS) : ServerCall → AHTTPServerLWS
  | .start created => (self.httpServerStart created).1
  | .stop => self.httpServerStop
  | .toggle bIsPause => (self.httpServerToggle bIsPause).1

/-- Every call is possible at every moment. -/
def step (self : AHTTPServerLWS) (c : ServerCall) : Option AHTTPServerLWS := some (self.call c)

/-- The object that a call reaches through the pointer. -/
def reached (self : AHTTPServerLWS) : ServerCall → Option FHTTPThreadLibWebSocket
  | .start _ => none
  | .stop => self.target
  | .toggle _ => self.target

/-- A named actor creates an object and points to it. -/
theorem call_start {self : AHTTPServerLWS} (hname : self.serverName ≠ []) (created : Bool) :
    self.call (.start created) =
      ⟨self.serverName, some self.threads.length, self.threads ++ [.new created]⟩ := by
  rw [call, httpServerStart, if_neg hname]

/-- No call changes the name. -/
theorem serverName_call (self : AHTTPServerLWS) (c : ServerCall) :
    (self.call c).serverName = self.serverName := by
  cases c with
  | start created =>
    simp only [call, httpServerStart]
    split_ifs <;> rfl
  | stop =>
    simp only [call, httpServerStop]
    split <;> rfl
  | toggle b =>
    simp only [call, httpServerToggle]
    split <;> rfl

/-- What a stop and a toggle do to the object behind the pointer. -/
theorem target_call_of_target {self : AHTTPServerLWS} {thread : FHTTPThreadLibWebSocket}
    (h : self.target = some thread) :
    (self.call .stop).target = some thread.delete ∧
      ∀ b, (self.call (.toggle b)).target = some (thread.toggle b).1 ∧
        (self.httpServerToggle b).2 = (thread.toggle b).2 := by
  obtain ⟨p, hp, hthread⟩ := Option.bind_eq_some_iff.mp h
  refine ⟨?_, fun b => ⟨?_, ?_⟩⟩
  · simp [call, httpServerStop, hp, target, hthread]
  · simp [call, httpServerToggle, hp, target, hthread]
  · simp [httpServerToggle, hp, hthread]

end AHTTPServerLWS

end HttpLws
