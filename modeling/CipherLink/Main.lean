import CipherLink.CommandLine

/-!
# The program

Checks the command line of a server and reports what the server offers. How the
bytes of a connection travel is left to whoever embeds the library.
-/

open CipherLink

def usageLines : List String := [
  "Usage: [--bind ADDRESS] [--key-file PATH] [--key-exchange ALGORITHM]...",
  "       [--symmetric ALGORITHM]... [--unencrypted] [--log-level LEVEL]"]

def servingLines (options : CommandLine.Options) (server : Server) : List String :=
  let link := server.config.link
  let offers := link.keyExchange.supported ++ link.symmetric.supported
  (if options.unencrypted then ["Encryption disabled - frames travel in plaintext"] else []) ++
    offers.map Descriptor.render

def main (args : List String) : IO UInt32 := do
  let outcome := CommandLine.run args .empty (Noise.ofSeed 0)
  match outcome with
  | .stopped .usage => usageLines.forM IO.eprintln
  | .stopped .help => usageLines.forM IO.println
  | .stopped .version => CommandLine.versionLines.forM IO.println
  | .failed cause => IO.eprintln ("Error: " ++ CommandLine.failureText cause)
  | .serving options server => (servingLines options server).forM IO.println
  return UInt32.ofNat outcome.exitCode
