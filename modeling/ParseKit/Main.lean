import ParseKit.Descriptor.Sample
/-!
The command line: prints how the sample descriptors are read.
-/

def main : IO Unit := ParseKit.sampleLines.forM IO.println
