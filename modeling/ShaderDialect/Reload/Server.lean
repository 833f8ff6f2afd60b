import ShaderDialect.Build
import ShaderDialect.Frame
import ShaderDialect.Reload

/-! A server that builds the files of its projects on request. A request that cannot be read or met
gets a response as well; only a response beyond the limit of a message ends the connection. -/
namespace ShaderDialect

structure ReloadServer where
  projects : List (String × BuildConfig)
  machine : Machine

namespace ReloadServer

/-- What is said of a request that cannot be read, where its reader says no more. -/
def formExpected : String := "the text does not have the expected form"

/-- Why a request that is not of the expected form is refused. -/
def unreadable : String := s!"malformed request: {formExpected}"

def refuse (fault : ReloadFault) : ReloadResponse := .failed s!"malformed request: {fault.message}"

def readArtifact (tree : FileTree) (path : Path) : Except Failure Artifact :=
  match tree.read path with
  | .ok bytes => .ok ⟨path.text, bytes⟩
  | .error e => .error (.pathIo path e)

/-- The settings that a request is built with. -/
def configFor (s : ReloadServer) (tree : FileTree) (r : ReloadRequest) :
    Except ReloadFault BuildConfig :=
  match s.projects.lookup r.project with
  | none => .error (.unknownProject r.project)
  | some config =>
    if r.paths.isEmpty then .error .noInputs
    else
      match r.paths.find? fun p => !tree.isFile p with
      | some missing => .error (.missingInput missing)
      | none => .ok { config with incremental := false }

def respond (tree : FileTree) (report : BuildReport) : Except Failure ReloadResponse := do
  if report.succeeded then
    let artifacts ← (report.files.flatMap FileReport.artifacts).mapM (readArtifact tree)
    return { success := true, artifacts, error := none }
  else return .failed ("\n".intercalate report.failures)

def handle (s : ReloadServer) (tree : FileTree) (r : ReloadRequest) : FileTree × ReloadResponse :=
  match s.configFor tree r with
  | .error fault => (tree, .failed (Failure.reload fault).message)
  | .ok config =>
    let (builder, start) := Builder.start s.machine tree config
    let (report, state) := builder.run start r.paths
    match respond state.tree report with
    | .ok response => (state.tree, response)
    | .error e => (state.tree, .failed e.message)

/-- Answers one message. `explain` is what the reader of requests says of bytes that it cannot
read. -/
def answer (s : ReloadServer) (tree : FileTree) (payload : List UInt8)
    (explain : List UInt8 → String := fun _ => formExpected) : FileTree × ReloadResponse :=
  match ReloadRequest.ofBytes? payload with
  | some request => s.handle tree request
  | none => (tree, .failed s!"malformed request: {explain payload}")

/-- What is sent back over a connection on which a stream arrives. Where the stream cannot be
followed any more, or a response cannot be sent, the connection ends. -/
def connection (s : ReloadServer) (tree : FileTree) (stream : List UInt8)
    (explain : List UInt8 → String := fun _ => formExpected) : FileTree × List UInt8 :=
  match h : Frame.read stream with
  | .ok none => (tree, [])
  | .error fault => (tree, ((Frame.write (refuse fault).toBytes).run.run []).2)
  | .ok (some (payload, rest)) =>
    have := Frame.length_lt_of_read h
    let (tree, response) := s.answer tree payload explain
    match (Frame.write response.toBytes).run.run [] with
    | (.error _, sent) => (tree, sent)
    | (.ok (), sent) =>
      let (tree, more) := connection s tree rest explain
      (tree, sent ++ more)
termination_by stream.length

end ReloadServer
end ShaderDialect
